import LatchTree.Proofs.Lookup.Alone
import LatchTree.Proofs.Spin

/-!
All calls on a tree, one after the other: they answer as those on a list of entries in ascending order
do, and the tree reads as that list.
-/

namespace LatchTree

variable {K V : Type} {cmp : K → K → Ordering} {k : K} {t : Shape K V} {s s' : Store K V}

/-! ## Searching -/

namespace Program.Ensures

variable {R : Shape K V → Prop} {x : Content K V} {g : Grips} {p : Path K V}
  {u : Shape K V} {fuel : Nat}

theorem searchFrom {Q : Option V → Content K V → Grips → Prop} (hx : x.TidyTree (p.plug u))
    (hg : g.Calm) (hp : p.Leads cmp k) (hfuel : u.size < fuel)
    (h : ∀ v, (p.plug u).Finds cmp k v → Q v x g) :
    (Tree.searchFrom cmp k fuel u.top).Ensures cmp R x g Q := by
  induction u generalizing p fuel with
  | nil =>
    obtain ⟨fuel, rfl⟩ := Nat.exists_eq_succ_of_ne_zero (Nat.ne_of_gt (Nat.zero_lt_of_lt hfuel))
    unfold Tree.searchFrom
    rw [if_pos Shape.top_nil]
    exact .pure (h _ (.absent rfl hp))
  | node c l a r ihl ihr =>
    obtain ⟨fuel, rfl⟩ := Nat.exists_eq_succ_of_ne_zero (Nat.ne_of_gt (Nat.zero_lt_of_lt hfuel))
    have hsize := Shape.size_node c l a r
    unfold Tree.searchFrom
    rw [if_neg (hx.tree.ne_nil (by simp [Shape.top]))]
    refine .bind (.look hx.sound hg (Content.TidyTree.focus (d := .left) hx) ?_)
    rw [Row.order_node]
    cases ha : a.order cmp k with
    | gt => exact ihl (p := .under .left c a r p) hx ⟨ha, hp⟩ (by omega) h
    | lt => exact ihr (p := .under .right c a l p) hx ⟨ha, hp⟩ (by omega) h
    | eq => exact .pure (h _ (.present rfl hp ha))

theorem search {Q : Option V → Content K V → Grips → Prop} (hx : x.TidyTree t) (hg : g.Calm)
    (hfuel : t.size < fuel) (h : ∀ v, t.Finds cmp k v → Q v x g) :
    (Tree.search cmp fuel k).Ensures cmp R x g Q :=
  .bind (.root hx hg (.searchFrom (p := .top) hx hg trivial hfuel h))

end Program.Ensures

/-! ## Calls -/

/-- What a thread may ask of a tree. -/
inductive Call (K V : Type) where
  | update (u : Update K V)
  | find (k : K)
  | findCoupled (k : K)
  | len
  | isEmpty

inductive Reply (V : Type) where
  | value (v : Option V)
  | length (n : UInt64)
  | empty (b : Bool)
  deriving DecidableEq

namespace Store

def call (cmp : K → K → Ordering) (s : Store K V) : Call K V → Except Halt (Reply V) × Store K V
  | .update u => (s.update cmp u).map (·.map .value) id
  | .find k => (s.find cmp k).map (·.map .value) id
  | .findCoupled k => (s.findCoupled cmp k).map (·.map .value) id
  | .len => (.ok (.length s.len), s)
  | .isEmpty => (.ok (.empty s.isEmpty), s)

/-- Makes calls in order, up to the first that fails. -/
def calls (cmp : K → K → Ordering) :
    Store K V → List (Call K V) → Except Halt (List (Reply V)) × Store K V
  | s, [] => (.ok [], s)
  | s, c :: cs =>
    match s.call cmp c with
    | (.ok r, s) => (calls cmp s cs).map (·.map (r :: ·)) id
    | (.error h, s) => (.error h, s)

end Store

/-! ## Whatever the comparison says -/

/-- Where no latch is held a search ends, be the tree settled or not. -/
theorem Store.Shows.find (hw : s.Shows (fun _ => 0) .free) (hx : s.content.TidyTree t)
    (cmp : K → K → Ordering) (k : K) : s.find cmp k = (.ok (t.found cmp k), s) := by
  have hsearch : (Tree.search cmp s.patience k).Ensures cmp (fun _ => False) s.content .free
      fun v x g => x = s.content ∧ g = .free ∧ t.Finds cmp k v :=
    .search hx (Grips.holding_calm none) (size_lt_patience hx) fun v hv => ⟨rfl, rfl, hv⟩
  obtain ⟨v, s', g', hrun, ⟨hx', rfl, hv⟩, hw'⟩ := hsearch.run hw []
  have hspin := Program.spin_run (Tree.search cmp s.patience k) s []
  rw [hrun] at hspin
  rw [Store.find, hrun, hv.eq_found, eq_of_content hw hw' hx' hspin]

namespace Store.UnlatchedTree

theorem find (hs : s.UnlatchedTree t) (cmp : K → K → Ordering) (k : K) :
    s.find cmp k = (.ok (t.found cmp k), s) :=
  hs.shows.find hs.settled.tidy cmp k

theorem findCoupled (hs : s.UnlatchedTree t) (cmp : K → K → Ordering) (k : K) :
    s.findCoupled cmp k = (.ok (t.found cmp k), s) := by
  have hw : s.Shows (fun i => (fun _ => 0) i + (Lookup.start (K := K) (V := V)).nodes.count i)
    .free := hs.shows
  have hends := Lookup.ends_start (o := fun _ => 0) hs.settled.tidy (by simp) cmp k rfl hw
  have hle := le_patience hs.settled.tidy
  have hfuel : 3 * t.size + 9 < 4 * s.patience := by omega
  obtain ⟨s', hrun⟩ := hends.run [] hfuel
  obtain ⟨hx, hw'⟩ := Lookup.Fits.run_keeps (l := .start) hs.settled.tidy (by simp) rfl hw
    trivial hrun
  have hspin := Lookup.spin_run cmp k (4 * s.patience) .start s []
  rw [hrun] at hspin
  rw [Store.findCoupled, hrun, eq_of_content hs.shows hw' hx hspin]

theorem call (hs : s.UnlatchedTree t) (cmp : K → K → Ordering) (c : Call K V) : ∃ r s' t',
    s.call cmp c = (.ok r, s') ∧ s'.UnlatchedTree t' := by
  cases c with
  | update u =>
    obtain ⟨old, s', t', hrun, hs', -⟩ := hs.update cmp u
    exact ⟨.value old, s', t', by rw [Store.call, hrun]; rfl, hs'⟩
  | find k => exact ⟨_, s, t, by rw [Store.call, hs.find cmp k]; rfl, hs⟩
  | findCoupled k => exact ⟨_, s, t, by rw [Store.call, hs.findCoupled cmp k]; rfl, hs⟩
  | len => exact ⟨_, s, t, rfl, hs⟩
  | isEmpty => exact ⟨_, s, t, rfl, hs⟩

theorem calls (hs : s.UnlatchedTree t) (cmp : K → K → Ordering) (cs : List (Call K V)) : ∃ rs s' t',
    s.calls cmp cs = (.ok rs, s') ∧ rs.length = cs.length ∧ s'.UnlatchedTree t' := by
  induction cs generalizing s t with
  | nil => exact ⟨[], s, t, rfl, rfl, hs⟩
  | cons c cs ih =>
    obtain ⟨r, s₁, t₁, hc, hs₁⟩ := hs.call cmp c
    obtain ⟨rs, s₂, t₂, hcs, hlen, hs₂⟩ := ih hs₁
    refine ⟨r :: rs, s₂, t₂, ?_, congrArg Nat.succ hlen, hs₂⟩
    rw [Store.calls, hc]
    simp only [hcs]
    rfl

end Store.UnlatchedTree

/-- Whatever the comparison of keys says, all calls on a new tree come to an end with a reply: none meets
a fault, waits for a latch that is not let go, or runs forever. They leave a red-black tree, and no latch
is held. -/
theorem Store.calls_reply (cmp : K → K → Ordering) (spin : Bool) (cs : List (Call K V)) :
    ∃ rs s t, (Store.empty spin).calls cmp cs = (.ok rs, s) ∧ rs.length = cs.length ∧ s.RedBlack t ∧
      s.table = .free ∧ ∀ r, s.word r = .free := by
  obtain ⟨rs, s, t, hrun, hlen, hs⟩ := (UnlatchedTree.empty spin).calls cmp cs
  exact ⟨rs, s, t, hrun, hlen, hs.redBlack, hs.shows.table,
    fun r => (hs.shows.word r).trans Latch.Word.free_eq_compose.symm⟩

/-! ## As a map -/

namespace Entries

def update (cmp : K → K → Ordering) (m : Entries K V) : Update K V → Option V × Entries K V
  | .set k v => (m.get cmp k, m.set cmp k v)
  | .remove k => (m.get cmp k, m.erase cmp k)

/-- What a map replies. Its length is counted in 64 bits. -/
def call (cmp : K → K → Ordering) (m : Entries K V) : Call K V → Reply V × Entries K V
  | .update u => (m.update cmp u).map .value id
  | .find k | .findCoupled k => (.value (m.get cmp k), m)
  | .len => (.length (.ofNat m.length), m)
  | .isEmpty => (.empty (UInt64.ofNat m.length == 0), m)

def calls (cmp : K → K → Ordering) : Entries K V → List (Call K V) → List (Reply V) × Entries K V
  | m, [] => ([], m)
  | m, c :: cs => (calls cmp (m.call cmp c).2 cs).map ((m.call cmp c).1 :: ·) id

end Entries

/-- No latch is held, and the settled tree has the entries `m`, in ascending order. -/
structure Store.Reads (cmp : K → K → Ordering) (s : Store K V) (t : Shape K V) (m : Entries K V) :
    Prop where
  unlatched : s.UnlatchedTree t
  sorted : t.Sorted cmp
  entries : t.entries = m

namespace Store.Reads

variable {m : Entries K V}

theorem empty (cmp : K → K → Ordering) (spin : Bool) :
    (Store.empty spin).Reads cmp (.nil : Shape K V) [] :=
  ⟨.empty spin, ⟨by simp [Shape.rows], .nil⟩, rfl⟩

theorem len (h : s.Reads cmp t m) : s.len = UInt64.ofNat m.length := by
  rw [← h.entries, Shape.entries, Entries.length_ofRows h.unlatched.settled.filled]
  exact h.unlatched.settled.entries

variable [Std.TransCmp cmp]

theorem update (h : s.Reads cmp t m) (u : Update K V) : ∃ s' t',
    s.update cmp u = (.ok (m.update cmp u).1, s') ∧ s'.Reads cmp t' (m.update cmp u).2 := by
  obtain ⟨hrest, hs, rfl⟩ := h
  obtain ⟨old, s', t', hrun, hrest', hu⟩ := hrest.update cmp u
  refine ⟨s', t', ?_⟩
  cases u with
  | set k v =>
    obtain ⟨hold, hentries⟩ := Shape.Sets.eq_set hu hs hrest.settled.filled
    exact ⟨by rw [hrun, hold]; rfl, hrest', Shape.Sets.sorted hu hs, hentries⟩
  | remove k =>
    obtain ⟨hold, hentries⟩ := Shape.Removes.eq_erase hu hs hrest.settled.filled
    exact ⟨by rw [hrun, hold]; rfl, hrest', Shape.Removes.sorted hu hs, hentries⟩

theorem updates (h : s.Reads cmp t m) (us : List (Update K V)) : ∃ olds s' t' m',
    s.updates cmp us = (.ok olds, s') ∧ s'.Reads cmp t' m' := by
  induction us generalizing s t m with
  | nil => exact ⟨[], s, t, m, rfl, h⟩
  | cons u us ih =>
    obtain ⟨s₁, t₁, hu, h₁⟩ := h.update u
    obtain ⟨olds, s₂, t₂, m₂, hus, h₂⟩ := ih h₁
    exact ⟨(m.update cmp u).1 :: olds, s₂, t₂, m₂, by rw [Store.updates, hu]; simp only [hus], h₂⟩

theorem found (h : s.Reads cmp t m) (k : K) : t.found cmp k = m.get cmp k :=
  h.entries ▸ h.sorted.found_eq_get h.unlatched.settled.filled

theorem call (h : s.Reads cmp t m) (c : Call K V) : ∃ s' t',
    s.call cmp c = (.ok (m.call cmp c).1, s') ∧ s'.Reads cmp t' (m.call cmp c).2 := by
  cases c with
  | update u =>
    obtain ⟨s', t', hrun, hs'⟩ := h.update u
    exact ⟨s', t', by rw [Store.call, hrun]; rfl, hs'⟩
  | find k => exact ⟨s, t, by rw [Store.call, h.unlatched.find cmp k, h.found]; rfl, h⟩
  | findCoupled k => exact ⟨s, t, by rw [Store.call, h.unlatched.findCoupled cmp k, h.found]; rfl, h⟩
  | len => exact ⟨s, t, by rw [Store.call, h.len]; rfl, h⟩
  | isEmpty => exact ⟨s, t, by rw [Store.call, Store.isEmpty, h.len]; rfl, h⟩

theorem calls (h : s.Reads cmp t m) (cs : List (Call K V)) : ∃ s' t',
    s.calls cmp cs = (.ok (m.calls cmp cs).1, s') ∧ s'.Reads cmp t' (m.calls cmp cs).2 := by
  induction cs generalizing s t m with
  | nil => exact ⟨s, t, rfl, h⟩
  | cons c cs ih =>
    obtain ⟨s₁, t₁, hc, h₁⟩ := h.call c
    obtain ⟨s₂, t₂, hcs, h₂⟩ := ih h₁
    exact ⟨s₂, t₂, by rw [Store.calls, hc]; simp only [hcs]; rfl, h₂⟩

end Store.Reads

/-! ## The tree as a map -/

/-- Calls on a new tree reply as those on an empty map do. Afterwards the links unfold to a tree that
reads as the map, whose keys ascend, and the count of entries is its length. -/
theorem Store.calls_empty (cmp : K → K → Ordering) [Std.TransCmp cmp] (spin : Bool)
    (cs : List (Call K V)) :
    ∃ s t, (Store.empty spin).calls cmp cs = (.ok (Entries.calls cmp [] cs).1, s) ∧
      Heap.FreshTree s.node? t ∧
      t.rows.map (fun a => (a.key, a.value)) =
        (Entries.calls cmp [] cs).2.map (fun e => (some e.1, some e.2)) ∧
      (Entries.calls cmp [] cs).2.Ascending cmp ∧
      s.len = UInt64.ofNat (Entries.calls cmp [] cs).2.length ∧
      ((Entries.calls cmp [] cs).2.length < 2 ^ 64 →
        s.len.toNat = (Entries.calls cmp [] cs).2.length ∧
        s.isEmpty = (Entries.calls cmp [] cs).2.isEmpty) := by
  obtain ⟨s, t, hrun, h⟩ := (Store.Reads.empty cmp spin).calls cs
  refine ⟨s, t, hrun, h.unlatched.settled.tidy.tree, ?_, ?_, h.len, fun hlt => ?_⟩
  · rw [← h.entries]
    exact Entries.map_ofRows h.unlatched.settled.filled
  · exact h.entries ▸ h.sorted.entries_ascending
  · generalize (Entries.calls cmp [] cs).2 = m at h hlt
    have hlen : s.len.toNat = m.length := by
      rw [h.len, UInt64.toNat_ofNat']
      exact Nat.mod_eq_of_lt hlt
    refine ⟨hlen, ?_⟩
    cases m with
    | nil => rw [Store.isEmpty, h.len]; rfl
    | cons e m =>
      have hne : s.len ≠ 0 := by
        intro h0
        rw [h0] at hlen
        exact absurd hlen (by simp)
      simpa [Store.isEmpty] using hne

theorem Store.calls_empty_compare : ∃ s t,
    (Store.empty true).calls compare [.update (.set 2 20), .update (.set 1 10), .findCoupled 2,
      .update (.set 2 21), .find 2, .update (.remove 1), .len] =
      (.ok [.value none, .value none, .value (some 20), .value (some 20), .value (some 21),
        .value (some 10), .length 1], s) ∧
    Heap.FreshTree s.node? t ∧ t.rows.map (fun a => (a.key, a.value)) = [(some 2, some 21)] := by
  obtain ⟨s, t, hrun, hb, hrows, -⟩ := Store.calls_empty (K := Nat) (V := Nat) compare true
    [.update (.set 2 20), .update (.set 1 10), .findCoupled 2, .update (.set 2 21), .find 2,
      .update (.remove 1), .len]
  exact ⟨s, t, hrun, hb, hrows⟩

end LatchTree
