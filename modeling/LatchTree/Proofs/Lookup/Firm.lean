import LatchTree.Proofs.Trace

/-!
A lookup while nothing is written. It stays on the way of the search for its key, with ever fewer nodes
before it, and nothing sends it back to the start: the count of relocations is the one that it has seen,
and the links that it checks again are those that it has followed.
-/

namespace LatchTree

variable {K V : Type} {cmp : K → K → Ordering} {k : K} {x x' : Content K V} {t : Shape K V}
  {r cur child : Ref} {m N : ℕ}

namespace Content

/-- The search for `k` comes to the node `r`, and from there on to at most `m` nodes. -/
inductive Comes (cmp : K → K → Ordering) (k : K) (x : Content K V) (t : Shape K V) : ℕ → Ref → Prop
  | anchor : Comes cmp k x t (t.size + 1) 1
  | node {p : Path K V} {w : Shape K V} {r : Ref} (ht : t = p.plug w) (hp : p.Leads cmp k)
      (hw : w ≠ .nil) (hr : x.ref? w.top = some r) : Comes cmp k x t w.size r

/-- No section takes effect between `x` and `x'`: the nodes stay, and so do the slots of the tree and
the count of relocations. -/
structure Spares (t : Shape K V) (x x' : Content K V) : Prop where
  node : ∀ r < x.made, x'.node r = x.node r
  refs : ∀ i ∈ NodeId.nil :: NodeId.anchor :: t.ids, x'.ref? i = x.ref? i
  relocations : x'.relocations = x.relocations

theorem TidyTree.top_eq_nil (hx : x.TidyTree t) {p : Path K V} {w : Shape K V} (ht : t = p.plug w)
    (hw : w.top = .nil) : w = .nil := by
  by_contra hne
  subst ht
  exact hx.tree.ne_nil (by simp [Shape.top_mem_ids hne]) hw

namespace Comes

theorem pos (h : x.Comes cmp k t m r) : 0 < m := by
  cases h with
  | anchor => exact Nat.succ_pos _
  | @node p w _ _ _ hw _ =>
    cases w with
    | nil => exact absurd rfl hw
    | node c l a u =>
      rw [Shape.size_node]
      exact Nat.succ_pos _

theorem at_place (hx : x.TidyTree t) (h : x.Comes cmp k t m r) : ∃ i, x.At t r i := by
  cases h with
  | anchor => exact ⟨_, hx.anchor⟩
  | @node p w _ ht _ hw hr =>
    subst ht
    exact ⟨_, hr, List.mem_cons_of_mem _ (by simp [Shape.top_mem_ids hw])⟩

/-- From a node that does not compare equal with `k` the search goes on to what is below it on the side
of `k`. -/
theorem towards (hx : x.TidyTree t) (h : x.Comes cmp k t m r) (ho : (x.node r).order cmp k ≠ .eq) :
    ∃ p w, t = Path.plug p w ∧ p.Leads cmp k ∧ w.size < m ∧ (x.node r).towards cmp k = w.top := by
  cases h with
  | anchor =>
    refine ⟨.top, t, rfl, trivial, Nat.lt_succ_self _, ?_⟩
    rw [hx.node_anchor]
    rfl
  | @node p w _ ht hp hw hr =>
    obtain ⟨c, X, a, Y, rfl⟩ :=
      (Shape.eq_nil_or_join (Node.sideOf ((x.node r).order cmp k)) w).resolve_left hw
    subst ht
    rw [Shape.top_join] at hr
    have hnode := hx.node_focus hr
    have horder : (x.node r).order cmp k = a.order cmp k := by rw [hnode, Row.order_node]
    refine ⟨.under _ c a Y p, X, rfl, ⟨?_, hp⟩, ?_, ?_⟩
    · rw [Side.ordering_sideOf ho, horder]
    · rw [Shape.size_join]
      omega
    · rw [Node.towards, hnode, Row.order_node, ← horder, Row.child_node]

theorem next (hx : x.TidyTree t) (h : x.Comes cmp k t m cur) (ho : (x.node cur).order cmp k ≠ .eq)
    (hn : (x.node cur).towards cmp k ≠ .nil)
    (hr : x.ref? ((x.node cur).towards cmp k) = some child) : ∃ m' < m, x.Comes cmp k t m' child := by
  obtain ⟨p, w, ht, hp, hlt, hw⟩ := h.towards hx ho
  rw [hw] at hn hr
  refine ⟨w.size, hlt, .node ht hp ?_ hr⟩
  rintro rfl
  exact hn rfl

theorem found_of_missed (hx : x.TidyTree t) (h : x.Comes cmp k t m r)
    (ho : (x.node r).order cmp k ≠ .eq) (hn : (x.node r).towards cmp k = .nil) :
    t.found cmp k = none := by
  obtain ⟨p, w, ht, hp, -, hw⟩ := h.towards hx ho
  obtain rfl := hx.top_eq_nil ht (hw.symm.trans hn)
  exact (Shape.Finds.absent ht hp).eq_found.symm

theorem found_of_eq (hx : x.TidyTree t) (h : x.Comes cmp k t m r)
    (ho : (x.node r).order cmp k = .eq) : (x.node r).value = t.found cmp k := by
  cases h with
  | anchor =>
    rw [hx.node_anchor] at ho
    exact absurd ho (by simp [Node.order, Node.reserved])
  | @node p w _ ht hp hw hr =>
    obtain ⟨c, l, a, u, rfl⟩ := (Shape.eq_nil_or_join .left w).resolve_left hw
    subst ht
    rw [Shape.top_join] at hr
    have hnode := hx.node_focus hr
    rw [hnode, Row.order_node] at ho
    rw [hnode, Row.value_node]
    exact (Shape.Finds.present rfl hp ho).eq_found

theorem spared (hs : x.Spares t x') (h : x.Comes cmp k t m r) : x'.Comes cmp k t m r := by
  cases h with
  | anchor => exact .anchor
  | @node p w _ ht hp hw hr =>
    refine .node ht hp hw ((hs.refs _ ?_).trans hr)
    subst ht
    exact List.mem_cons_of_mem _ (List.mem_cons_of_mem _ (by simp [Shape.top_mem_ids hw]))

end Comes

end Content

namespace Lookup

open Content

/-- The link `next` of `cur` is the one on the side of `k`, and by it the search comes to `child`. -/
structure Pair (cmp : K → K → Ordering) (k : K) (x : Content K V) (t : Shape K V) (m : ℕ) (cur : Ref)
    (next : NodeId) (child : Ref) : Prop where
  towards : (x.node cur).towards cmp k = next
  ref : x.ref? next = some child
  comes : x.Comes cmp k t m child

/-- What a lookup knows if nothing was written since it started, and will not restart for. At most `N`
requests are left to it: for each node before it, one for its id and up to six to take it up in place of
the one above. -/
def Firm (cmp : K → K → Ordering) (k : K) (x : Content K V) (t : Shape K V) (N : ℕ) :
    Lookup K V → Prop
  | start => 7 * t.size + 10 ≤ N
  | atTop seen => seen = x.relocations ∧ 7 * t.size + 9 ≤ N
  | entering seen _ => seen = x.relocations ∧ 7 * t.size + 8 ≤ N
  | missed seen _ => seen = x.relocations ∧ t.found cmp k = none ∧ 2 ≤ N
  | resolving seen cur _ _ => seen = x.relocations ∧ ∃ m, x.Comes cmp k t m cur ∧ 7 * m ≤ N
  | stepping seen _ _ _ child =>
      seen = x.relocations ∧ ∃ m, x.Comes cmp k t m child ∧ 7 * m + 6 ≤ N
  | moving seen _ child _ => seen = x.relocations ∧ ∃ m, x.Comes cmp k t m child ∧ 7 * m + 1 ≤ N
  | backing seen cur next child =>
      seen = x.relocations ∧ ∃ m, Pair cmp k x t m cur next child ∧ 7 * m + 5 ≤ N
  | apart seen cur next child =>
      seen = x.relocations ∧ ∃ m, Pair cmp k x t m cur next child ∧ 7 * m + 4 ≤ N
  | againParent seen cur _ next child | againChild seen cur next child _ =>
      seen = x.relocations ∧ ∃ m, Pair cmp k x t m cur next child ∧ 7 * m + 3 ≤ N
  | checking seen cur next child _ =>
      seen = x.relocations ∧ ∃ m, Pair cmp k x t m cur next child ∧ 7 * m + 2 ≤ N
  | retreating _ _ => False
  | answering _ v => v = t.found cmp k ∧ 1 ≤ N
  | finished v => v = t.found cmp k

variable {l : Lookup K V} {next : NodeId}

/-! ## The lookup's own requests -/

theorem Firm.visit (hx : x.TidyTree t) (h : x.Comes cmp k t m cur) (hN : 7 * m ≤ N) :
    (visit cmp k x.relocations cur (x.node cur)).Firm cmp k x t N := by
  have hpos := h.pos
  unfold Lookup.visit
  split_ifs with ho hn
  · exact ⟨h.found_of_eq hx ho, by omega⟩
  · exact ⟨rfl, h.found_of_missed hx ho hn, by omega⟩
  · exact ⟨rfl, m, h, hN⟩

theorem Firm.rejoin (h : Pair cmp k x t m cur next child) (hN : 7 * m + 2 ≤ N) :
    (rejoin cmp k x.relocations cur (x.node cur) next child (x.node child)).Firm cmp k x t N := by
  unfold Lookup.rejoin
  rw [if_pos h.towards]
  exact ⟨rfl, m, h, hN⟩

variable {s s' : Store K V} {q : Request K V} {f : q.Answer → Lookup K V} {a : q.Answer}

theorem resolve_answer {id : NodeId} {b : Ref} (hr : s.content.ref? id = some r)
    (hserve : (Request.resolve id).serve s = (.ok b, s')) : b = r := by
  have hans := (Request.yields_resolve hr s rfl).1
  rw [hserve] at hans
  exact Except.ok.inj hans

/-- A request of the lookup takes it on, unless it has been sent back before. -/
theorem Firm.turn (hx : s.content.TidyTree t) (hl : l.Fits cmp k s.content t)
    (hf : l.Firm cmp k s.content t N) (hq : l.turn cmp k = .ask q f) (hserve : q.serve s = (.ok a, s')) :
    ∃ M < N, (f a).Firm cmp k s.content t M := by
  cases l with
  | start =>
    cases hq
    cases hserve
    have hN : 7 * t.size + 10 ≤ N := hf
    exact ⟨N - 1, by omega, rfl, by omega⟩
  | atTop seen =>
    cases hq
    obtain ⟨rfl, hN⟩ := hf
    exact ⟨N - 1, by omega, rfl, by omega⟩
  | entering seen top =>
    cases hq
    cases hserve
    obtain rfl : top = 1 := hl
    obtain ⟨rfl, hN⟩ := hf
    exact ⟨N - 1, by omega, .visit hx .anchor (by omega)⟩
  | missed seen cur =>
    cases hq
    cases hserve
    obtain ⟨rfl, hfound, hN⟩ := hf
    refine ⟨N - 1, by omega, ?_⟩
    change (if s.relocations = s.relocations then _ else _ : Lookup K V).Firm _ _ _ _ _
    rw [if_pos rfl]
    exact ⟨hfound.symm, by omega⟩
  | resolving seen cur n next =>
    cases hq
    obtain ⟨⟨i, hi⟩, rfl, ho, rfl, hn⟩ := hl
    obtain ⟨rfl, m, hcomes, hN⟩ := hf
    obtain ⟨child, hchild⟩ :=
      hx.ref_some (List.mem_cons_of_mem _ (List.mem_cons_of_mem _ (hi.next hx hn).1))
    obtain ⟨m', hlt, hcomes'⟩ := hcomes.next hx ho hn hchild
    obtain rfl := resolve_answer hchild hserve
    exact ⟨N - 1, by omega, rfl, m', hcomes', by omega⟩
  | stepping seen cur n next child =>
    obtain ⟨-, rfl, -, rfl, -, hchild⟩ := hl
    obtain ⟨rfl, m, hcomes, hN⟩ := hf
    have hmoving : ∀ b, (moving s.content.relocations cur child b).Firm cmp k s.content t (N - 1) :=
      fun b => ⟨rfl, m, hcomes, by omega⟩
    simp only [Lookup.turn] at hq
    split_ifs at hq
    · cases hq
      exact ⟨N - 1, by omega, hmoving _⟩
    · cases hq
      cases a with
      | some b => exact ⟨N - 1, by omega, hmoving b⟩
      | none => exact ⟨N - 1, by omega, rfl, m, ⟨rfl, hchild, hcomes⟩, by omega⟩
  | moving seen cur child b =>
    cases hq
    obtain ⟨-, -, rfl⟩ := hl
    obtain ⟨rfl, m, hcomes, hN⟩ := hf
    exact ⟨N - 1, by omega, .visit hx hcomes (by omega)⟩
  | backing seen cur next child =>
    cases hq
    obtain ⟨rfl, m, hpair, hN⟩ := hf
    exact ⟨N - 1, by omega, rfl, m, hpair, by omega⟩
  | apart seen cur next child =>
    obtain ⟨rfl, m, hpair, hN⟩ := hf
    simp only [Lookup.turn] at hq
    split_ifs at hq
    all_goals
      cases hq
      exact ⟨N - 1, by omega, rfl, m, hpair, by omega⟩
  | againParent seen cur n next child =>
    cases hq
    cases hserve
    obtain ⟨-, -, -, rfl⟩ := hl
    obtain ⟨rfl, m, hpair, hN⟩ := hf
    exact ⟨N - 1, by omega, .rejoin hpair (by omega)⟩
  | againChild seen cur next child b =>
    cases hq
    cases hserve
    obtain ⟨-, -, -, rfl⟩ := hl
    obtain ⟨rfl, m, hpair, hN⟩ := hf
    exact ⟨N - 1, by omega, .rejoin hpair (by omega)⟩
  | checking seen cur next child b =>
    cases hq
    obtain ⟨rfl, m, hpair, hN⟩ := hf
    have he := resolve_answer hpair.ref hserve
    refine ⟨N - 1, by omega, ?_⟩
    simp only [he, if_true]
    exact ⟨rfl, m, hpair.comes, by omega⟩
  | retreating => exact hf.elim
  | answering cur v =>
    cases hq
    obtain ⟨hv, hN⟩ := hf
    exact ⟨N - 1, by omega, hv⟩
  | finished => exact absurd hq (by simp [Lookup.turn])

/-! ## When others go on -/

theorem Pair.spared (hx : x.TidyTree t) (hs : x.Spares t x') (hcur : cur < x.made)
    (h : Pair cmp k x t m cur next child) : Pair cmp k x' t m cur next child := by
  refine ⟨hs.node cur hcur ▸ h.towards, ?_, h.comes.spared hs⟩
  obtain ⟨i, hi⟩ := h.comes.at_place hx
  obtain rfl := hx.sound.inj _ _ _ h.ref hi.ref
  exact (hs.refs _ (List.mem_cons_of_mem _ hi.mem)).trans h.ref

theorem Firm.spared (hx : x.TidyTree t) (hs : x.Spares t x') (hl : l.Fits cmp k x t)
    (hf : l.Firm cmp k x t N) : l.Firm cmp k x' t N := by
  have hseen : ∀ {seen : UInt64}, seen = x.relocations → seen = x'.relocations :=
    fun h => h.trans hs.relocations.symm
  cases l with
  | start | answering | finished => exact hf
  | atTop | entering | missed => exact ⟨hseen hf.1, hf.2⟩
  | resolving | stepping | moving =>
    obtain ⟨h, m, hcomes, hN⟩ := hf
    exact ⟨hseen h, m, hcomes.spared hs, hN⟩
  | backing | apart | againParent | againChild | checking =>
    obtain ⟨h, m, hpair, hN⟩ := hf
    exact ⟨hseen h, m, hpair.spared hx hs hl.1, hN⟩
  | retreating => exact hf.elim

end Lookup

end LatchTree
