import LatchTree.Proofs.Crowd.Basic

/-!
What lookups find is in the tree. A node that a lookup compares with its key is the anchor or is linked
at that moment, though it may have let go of all nodes before, and nodes may have been erased and their
ids given to others in the meantime.
-/

namespace LatchTree

variable {K V : Type} {cmp : K → K → Ordering} {k : K} {v : V} {t : Shape K V}

namespace Lookup

variable {s : Store K V} {l l' : Lookup K V} {r : Ref} {m : Node K V}

/-- The node that is compared with the key in the next step, and its content. -/
def compared (s : Store K V) : Lookup K V → Option (Ref × Node K V)
  | entering _ top => some (top, s.node top)
  | moving _ _ child m => some (child, m)
  | _ => none

theorem Fits.compared (hl : l.Fits cmp k s.content t) (hx : s.content.TidyTree t)
    (h : l.compared s = some (r, m)) : (∃ i, s.content.At t r i) ∧ m = s.node r := by
  cases l with
  | entering seen top =>
    obtain rfl : top = 1 := hl
    cases h
    exact ⟨⟨_, hx.anchor⟩, rfl⟩
  | moving seen cur child n =>
    cases h
    obtain ⟨-, hat, rfl⟩ := hl
    exact ⟨hat, rfl⟩
  | _ => cases h

/-- An entry is found by a comparison. -/
theorem Next.compared (h : Next cmp k s.content l l') (hl' : l' = .answering r (some v)) :
    ∃ m, l.compared s = some (r, m) ∧ m.order cmp k = .eq ∧ m.value = some v := by
  cases h with
  | entering | moving =>
    rcases visit_cases _ _ _ with ⟨ho, h⟩ | h | h <;> have hv := h.symm.trans hl'
    · injection hv with hcur hval
      exact ⟨_, by rw [← hcur]; rfl, ho, hval⟩
    · cases hv
    · cases hv
  | againParent | againChild =>
    unfold rejoin at hl'
    split_ifs at hl'
  | _ => cases hl'

end Lookup

/-- A node that compares equal with `k` has an entry of the tree, and with a lawful comparison that is
the only one for `k`. -/
theorem Content.At.binds {x : Content K V} {r : Ref} {i : NodeId} (h : x.At t r i) (hx : x.TidyTree t)
    (hs : Std.TransCmp cmp → t.Sorted cmp) (ho : (x.node r).order cmp k = .eq) :
    ∃ a ∈ t.rows, a.order cmp k = .eq ∧ a.value = (x.node r).value ∧
      (Std.TransCmp cmp → ∀ b ∈ t.rows, b.order cmp k = .eq → b = a) := by
  rcases h.focus hx .left with ⟨rfl, hnode⟩ | ⟨p, c, l, a, u, rfl, rfl, hnode⟩
  · rw [hnode] at ho
    exact absurd ho (by simp [Node.order, Node.reserved])
  · rw [hnode, Row.order_node] at ho
    have ha : a ∈ (p.plug (.join .left c l a u)).rows := by simp [Path.rows_plug, Shape.join, Shape.rows]
    refine ⟨a, ha, ho, by rw [hnode, Row.value_node], fun hcmp b hb hbo => ?_⟩
    by_contra hne
    have hsymm : Std.Symm fun a b : Row K V => a.Before cmp b ∨ b.Before cmp a := ⟨fun _ _ => Or.symm⟩
    have hapart : List.Pairwise (fun a b => a.Before cmp b ∨ b.Before cmp a)
        (p.plug (.join .left c l a u)).rows := (hs hcmp).ascending.imp fun h => .inl h
    rcases hapart.forall hb ha hne with hba | hab
    · have hlt : b.order cmp k = .lt := hba.order_lt (by simp [ho])
      exact absurd (hlt.symm.trans hbo) (by simp)
    · have hlt : a.order cmp k = .lt := hab.order_lt (by simp [hbo])
      exact absurd (hlt.symm.trans ho) (by simp)

namespace Crowd

variable {c c' : Crowd K V} {g : Grips} {s : ℕ → Crowd K V} {n j : ℕ}

/-- The node is the anchor, or is linked in the tree. -/
def InTree (c : Crowd K V) (r : Ref) : Prop :=
  ∃ t, Heap.FreshTree c.store.node? t ∧ ∃ i ∈ NodeId.anchor :: t.ids, c.store.ref? i = some r

/-- An entry of the tree has the key `k` and the value `v`, and with a lawful comparison it is the only
one with that key. -/
def Binds (cmp : K → K → Ordering) (c : Crowd K V) (k : K) (v : V) : Prop :=
  ∃ t, Heap.FreshTree c.store.node? t ∧ ∃ a ∈ t.rows, a.order cmp k = .eq ∧ a.value = some v ∧
    (Std.TransCmp cmp → ∀ b ∈ t.rows, b.order cmp k = .eq → b = a)

/-- Lookups compare with nodes in the tree only, and no request of theirs meets a fault. -/
structure Safe (cmp : K → K → Ordering) (c : Crowd K V) : Prop where
  compared : ∀ l ∈ c.lookups, ∀ r m, l.phase.compared c.store = some (r, m) →
    c.InTree r ∧ m = c.store.node r
  steady : ∀ l ∈ c.lookups, ∀ f, l.phase.turn cmp l.key ≠ .fault f
  resolved : ∀ l ∈ c.lookups, ∀ id next, l.phase.turn cmp l.key = .ask (.resolve id) next →
    ∃ r, c.store.ref? id = some r
  answered : ∀ l ∈ c.lookups, ∀ q next, l.phase.turn cmp l.key = .ask q next →
    ∃ a, (q.serve c.store).1 = .ok a

theorem Sound.safe (h : c.Sound cmp t g) : c.Safe cmp where
  compared l hl r m hm := by
    obtain ⟨⟨i, hi⟩, hnode⟩ := (h.lookups l hl).phase.compared h.tidy hm
    exact ⟨⟨t, h.tidy.tree, i, hi.mem, hi.ref⟩, hnode⟩
  steady l hl f hf := by
    by_cases hphase : ∃ v, l.phase = .finished v
    · obtain ⟨v, hv⟩ := hphase
      rw [hv] at hf
      cases hf
    · obtain ⟨q, next, hq⟩ :=
        (h.lookups l hl).ranked.asks cmp l.key fun v hv => hphase ⟨v, hv⟩
      rw [hq] at hf
      cases hf
  resolved l hl id next hq := (h.lookups l hl).phase.resolves h.tidy hq
  answered l hl q next hq := (h.lookups l hl).phase.answered h.tidy hq

/-- A lookup after a step was there before, or has just started, or has made the step. -/
theorem lookup_step {a : Action K V} {l' : Thread K V} (h : c.step cmp a = some c')
    (hl' : c'.lookups[j]? = some l') : c.lookups[j]? = some l' ∨ (∃ k, l' = { key := k }) ∨
      (a = .look j ∧ ∃ l s', c.lookups[j]? = some l ∧ l.go cmp c.store = some (s', l')) := by
  cases a with
  | update u =>
    simp only [Crowd.step] at h
    split at h <;> cases h
    exact .inl hl'
  | write =>
    simp only [Crowd.step] at h
    split at h
    · cases h
      exact .inl hl'
    · obtain ⟨⟨s, p⟩, -, rfl⟩ := Option.map_eq_some_iff.1 h
      exact .inl hl'
    · cases h
    · cases h
  | enter k =>
    cases h
    rw [List.getElem?_append] at hl'
    split_ifs at hl' with hlt
    · exact .inl hl'
    · exact .inr (.inl ⟨k, by simpa using (List.mem_of_getElem? hl')⟩)
  | look i =>
    simp only [Crowd.step] at h
    split at h
    · rename_i l hl
      obtain ⟨⟨s', l₁⟩, hgo, rfl⟩ := Option.map_eq_some_iff.1 h
      rw [List.getElem?_set] at hl'
      split_ifs at hl' with hij hlt
      · obtain rfl := Option.some.inj hl'
        exact .inr (.inr ⟨by rw [hij], l, s', hij ▸ hl, hgo⟩)
      · exact .inl hl'
    · cases h

/-- The lookup `j` has found the value `v`: it has compared its key with a node of the tree at that
moment, the one that had the key and the value. -/
def Found (cmp : K → K → Ordering) (s : ℕ → Crowd K V) (n j : ℕ) (k : K) (v : V) : Prop :=
  ∃ i < n, (s i).step cmp (.look j) = some (s (i + 1)) ∧ (s i).Binds cmp k v ∧
    ∃ l, (s i).lookups[j]? = some l ∧ l.key = k ∧ ∃ r m, l.phase.compared (s i).store = some (r, m) ∧
      m.order cmp k = .eq ∧ m.value = some v

theorem Found.mono {m : ℕ} (h : Found cmp s n j k v) (hm : n ≤ m) : Found cmp s m j k v := by
  obtain ⟨i, hi, h⟩ := h
  exact ⟨i, Nat.lt_of_lt_of_le hi hm, h⟩

/-- A lookup that has a value has found it. -/
theorem Run.found (h : Run cmp s n) {l : Thread K V} (hl : (s n).lookups[j]? = some l)
    (hphase : (∃ r, l.phase = .answering r (some v)) ∨ l.phase = .finished (some v)) :
    Found cmp s n j l.key v := by
  induction n generalizing l with
  | zero =>
    obtain ⟨spin, hspin⟩ := h.start
    rw [hspin] at hl
    exact absurd hl (by simp)
  | succ n ih =>
    have hprev : Run cmp s n :=
      ⟨h.start, fun i hi => h.step i (Nat.lt_succ_of_lt hi), fun i hi => h.room i (Nat.le_succ_of_le hi)⟩
    obtain ⟨a, hstep⟩ := h.step n (Nat.lt_succ_self n)
    rcases lookup_step hstep hl with hl' | ⟨k, rfl⟩ | ⟨rfl, l₀, s', hl₀, hgo⟩
    · exact (ih hprev hl' hphase).mono (Nat.le_succ n)
    · rcases hphase with ⟨r, hr⟩ | hv
      · cases hr
      · cases hv
    · obtain ⟨q, next, b, hq, -, hserve, rfl⟩ := Thread.go_eq_some hgo
      have hnext := Lookup.next_of_turn hq hserve
      rcases hphase with ⟨r, hr⟩ | hv
      · -- it has just compared its key
        obtain ⟨m, hm, ho, hv⟩ := hnext.compared hr
        obtain ⟨t, g, ht⟩ := hprev.sound le_rfl
        have hfits := (ht.lookups l₀ (List.mem_of_getElem? hl₀)).phase
        obtain ⟨⟨i, hi⟩, rfl⟩ := hfits.compared ht.tidy hm
        obtain ⟨a, ha, hao, hav, huniq⟩ := hi.binds ht.tidy ht.sorted ho
        exact ⟨n, Nat.lt_succ_self n, hstep, ⟨t, ht.tidy.tree, a, ha, hao, hav.trans hv, huniq⟩, l₀,
          hl₀, rfl, r, _, hm, ho, hv⟩
      · obtain ⟨r, hr⟩ := hnext.of_finished hv
        exact (ih hprev hl₀ (.inl ⟨r, hr⟩)).mono (Nat.le_succ n)

/-- Every value that a lookup answers with was bound to its key in the tree when it compared the two. -/
theorem Run.lookups_safe (h : Run cmp s n) : (s n).Safe cmp ∧ ∀ j l v, (s n).lookups[j]? = some l →
    l.phase = .finished (some v) → Found cmp s n j l.key v := by
  obtain ⟨t, g, ht⟩ := h.sound le_rfl
  exact ⟨ht.safe, fun j l v hl hphase => h.found hl (.inr hphase)⟩

/-- A lookup of 1 stands on 2 when the writer has closed 1 to erase it. It lets go, and takes the two
nodes up again after the id has been given to a new node, for the same key. -/
def recycled : List (Action ℕ ℕ) :=
  List.flatten [[.update (.set 1 10)], List.replicate 9 .write, [.update (.set 2 20)],
    List.replicate 24 .write, [.update (.set 3 30)], List.replicate 61 .write, [.enter 1],
    List.replicate 7 (.look 0), [.update (.remove 1)], List.replicate 11 .write,
    List.replicate 2 (.look 0), List.replicate 8 .write, [.update (.set 1 50)],
    List.replicate 13 .write, List.replicate 15 (.look 0)]

theorem Run.lookups_safe_recycled : Found compare (follow compare true recycled) 156 0 1 50 := by
  have hlength : recycled.length = 156 := by simp [recycled]
  have hrun : Run compare (follow compare true recycled) recycled.length :=
    run_of_follow (by decide +kernel) (by rw [hlength]; decide)
  rw [hlength] at hrun
  have hlast : (follow compare true recycled 156).lookups.map (fun l => (l.key, match l.phase with
      | .finished v => v
      | _ => none)) = [(1, some 50)] := by
    decide +kernel
  obtain ⟨l, hl, hkey⟩ := List.map_eq_singleton_iff.1 hlast
  obtain ⟨hkey, hphase⟩ := Prod.mk.inj hkey
  have hfound := (Run.lookups_safe hrun).2 0 l 50 (by rw [hl]; rfl) ?_
  · rwa [hkey] at hfound
  · split at hphase
    · rename_i v hv
      rw [hv, hphase]
    · cases hphase

end Crowd

end LatchTree
