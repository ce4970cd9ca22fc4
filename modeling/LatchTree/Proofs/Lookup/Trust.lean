import LatchTree.Proofs.Lookup.Phases

/-!
When a miss may be trusted. As long as no entry is moved up, the search for the key comes to where the
lookup is; and where it does not come, there is no way back to it while the key is in the tree.
-/

namespace LatchTree.Lookup

open Content

variable {K V : Type} {cmp : K → K → Ordering} {k : K} {x x' : Content K V} {t t' : Shape K V}
  {g : Grips} {s s' : Store K V} {l l' : Lookup K V}

/-- A miss will be final if the count of relocations stays `now`. -/
def Trusts (now : UInt64) : Lookup K V → Prop
  | answering _ none => True
  | l => l.seen = some now

/-- The search for `k` comes to where the lookup is. -/
def OnPath (cmp : K → K → Ordering) (k : K) (x : Content K V) (t : Shape K V)
    (l : Lookup K V) : Prop :=
  ∀ r ∈ l.place, ∀ i, x.At t r i → t.Meets cmp k i

/-- It starts a pass, or has both nodes again that it had let go. -/
def Anew : Lookup K V → Prop
  | start | checking _ _ _ _ _ => True
  | _ => False

/-- The search for `k` does not come to where the lookup is, nor will the lookup find `k` before it
starts again or has checked a link. -/
def Astray (cmp : K → K → Ordering) (k : K) (x : Content K V) (t : Shape K V) :
    Lookup K V → Prop
  | start | atTop _ | entering _ _ | checking _ _ _ _ _ => False
  | backing _ _ _ _ | apart _ _ _ _ | againParent _ _ _ _ _ | againChild _ _ _ _ _
  | retreating _ _ => True
  | finished v => v = none
  | missed _ r | resolving _ r _ _ | stepping _ r _ _ _ | moving _ _ r _ | answering r _ =>
      ∀ i, x.At t r i → ¬t.Meets cmp k i

theorem Anew.onPath (h : l.Anew) : l.OnPath cmp k x t := by
  cases l with
  | start | checking => exact fun r hr => absurd hr (by simp [place])
  | _ => exact h.elim

/-! ## The lookup's own requests -/

theorem visit_cases (seen : UInt64) (cur : Ref) (n : Node K V) :
    (n.order cmp k = .eq ∧ visit cmp k seen cur n = answering cur n.value) ∨
      visit cmp k seen cur n = missed seen cur ∨
      visit cmp k seen cur n = resolving seen cur n (n.towards cmp k) := by
  unfold visit
  split_ifs with ho
  · exact .inl ⟨ho, rfl⟩
  · exact .inr (.inl rfl)
  · exact .inr (.inr rfl)

/-- What phase comes after which, on the content `x`. -/
inductive Next (cmp : K → K → Ordering) (k : K) (x : Content K V) : Lookup K V → Lookup K V → Prop
  | start : Next cmp k x start (atTop x.relocations)
  | atTop {seen top} : Next cmp k x (atTop seen) (entering seen top)
  | entering {seen top} : Next cmp k x (entering seen top) (visit cmp k seen top (x.node top))
  | missed {cur} : Next cmp k x (missed x.relocations cur) (answering cur none)
  | retried {seen cur} : Next cmp k x (missed seen cur) (retreating cur [])
  | resolving {seen cur n next child} :
      Next cmp k x (resolving seen cur n next) (stepping seen cur n next child)
  | stepping {seen cur n next child} :
      Next cmp k x (stepping seen cur n next child) (moving seen cur child (x.node child))
  | refused {seen cur n next child} :
      Next cmp k x (stepping seen cur n next child) (backing seen cur next child)
  | moving {seen cur child m} : Next cmp k x (moving seen cur child m) (visit cmp k seen child m)
  | backing {seen cur next child} :
      Next cmp k x (backing seen cur next child) (apart seen cur next child)
  | apartParent {seen cur next child} :
      Next cmp k x (apart seen cur next child) (againParent seen cur (x.node cur) next child)
  | apartChild {seen cur next child} :
      Next cmp k x (apart seen cur next child) (againChild seen cur next child (x.node child))
  | againParent {seen cur n next child} : Next cmp k x (againParent seen cur n next child)
      (rejoin cmp k seen cur n next child (x.node child))
  | againChild {seen cur next child m} : Next cmp k x (againChild seen cur next child m)
      (rejoin cmp k seen cur (x.node cur) next child m)
  | checking {seen cur next child m} :
      Next cmp k x (checking seen cur next child m) (moving seen cur child m)
  | unlinked {seen cur next child m} :
      Next cmp k x (checking seen cur next child m) (retreating child [cur])
  | retreating {first r rest} : Next cmp k x (retreating first (r :: rest)) (retreating r rest)
  | restarting {first} : Next cmp k x (retreating first []) start
  | answering {cur v} : Next cmp k x (answering cur v) (finished v)

theorem next_of_turn {q : Request K V} {next : q.Answer → Lookup K V} {a : q.Answer}
    (hq : l.turn cmp k = .ask q next) (hserve : q.serve s = (.ok a, s')) :
    Next cmp k s.content l (next a) := by
  cases l with
  | start =>
    cases hq
    cases hserve
    exact .start
  | atTop =>
    cases hq
    exact .atTop
  | entering =>
    cases hq
    cases hserve
    exact .entering
  | missed seen cur =>
    cases hq
    cases hserve
    rcases eq_or_ne s.relocations seen with rfl | h
    · simpa only [if_true] using .missed
    · simpa only [h, if_false] using .retried
  | resolving =>
    cases hq
    exact .resolving
  | stepping seen cur n next child =>
    simp only [turn] at hq
    split_ifs at hq
    · cases hq
      cases hserve
      exact .stepping
    · cases hq
      simp only [Request.serve] at hserve
      split_ifs at hserve
      · cases hserve
        exact .stepping
      · cases hserve
        exact .refused
  | moving =>
    cases hq
    exact .moving
  | backing =>
    cases hq
    exact .backing
  | apart =>
    simp only [turn] at hq
    split_ifs at hq
    · cases hq
      cases hserve
      exact .apartParent
    · cases hq
      cases hserve
      exact .apartChild
  | againParent =>
    cases hq
    cases hserve
    exact .againParent
  | againChild =>
    cases hq
    cases hserve
    exact .againChild
  | checking seen cur next child m =>
    cases hq
    rcases Nat.decEq a child with h | h
    · simpa only [h, if_false] using .unlinked
    · simpa only [h, if_true] using .checking
  | retreating first rest =>
    cases hq
    cases rest with
    | nil => exact .restarting
    | cons r rest => exact .retreating
  | answering =>
    cases hq
    exact .answering
  | finished => exact absurd hq (by simp [turn])

namespace Next

variable {v : Option V} {cur r r' : Ref}

/-- The count that a lookup compares with is that at the start of its pass. -/
theorem seen (h : Next cmp k x l l') :
    l'.seen = l.seen ∨ l'.seen = none ∨ l' = .atTop x.relocations := by
  cases h with
  | start => exact .inr (.inr rfl)
  | entering | moving =>
    rcases visit_cases _ _ _ with ⟨-, h⟩ | h | h <;> rw [h]
    · exact .inr (.inl rfl)
    · exact .inl rfl
    · exact .inl rfl
  | againParent | againChild =>
    unfold rejoin
    split_ifs
    · exact .inl rfl
    · exact .inr (.inl rfl)
  | missed | retried | unlinked | retreating | restarting | answering => exact .inr (.inl rfl)
  | _ => exact .inl rfl

theorem of_finished (h : Next cmp k x l l') (hl' : l' = .finished v) :
    ∃ cur, l = .answering cur v := by
  cases h with
  | answering =>
    cases hl'
    exact ⟨_, rfl⟩
  | entering | moving =>
    rcases visit_cases _ _ _ with ⟨-, h⟩ | h | h <;> exact absurd (h.symm.trans hl') (by simp)
  | againParent | againChild =>
    unfold rejoin at hl'
    split_ifs at hl'
  | _ => cases hl'

theorem of_answering (h : Next cmp k x l l') (hl : l.Fits cmp k x t) (hl' : l' = .answering cur v) :
    (l = .missed x.relocations cur ∧ v = none) ∨ (x.node cur).order cmp k = .eq := by
  cases h with
  | missed =>
    cases hl'
    exact .inl ⟨rfl, rfl⟩
  | entering =>
    rcases visit_cases _ _ _ with ⟨ho, h⟩ | h | h <;> cases h.symm.trans hl'
    exact .inr ho
  | moving =>
    rcases visit_cases _ _ _ with ⟨ho, h⟩ | h | h <;> cases h.symm.trans hl'
    obtain ⟨-, -, rfl⟩ := hl
    exact .inr ho
  | againParent | againChild =>
    unfold rejoin at hl'
    split_ifs at hl'
  | _ => cases hl'

/-- A lookup that trusts a miss did so before, unless it has just found its key. -/
theorem trusts (h : Next cmp k x l l') (hl : l.Fits cmp k x t) (hr : l.place = some r)
    (hr' : l'.place = some r') (ht : l'.Trusts x.relocations) :
    l.Trusts x.relocations ∨ (x.node r').order cmp k = .eq := by
  cases h with
  | moving =>
    obtain ⟨-, -, rfl⟩ := hl
    rcases visit_cases _ _ _ with ⟨ho, h⟩ | h | h <;> rw [h] at ht hr'
    · cases hr'
      exact .inr ho
    · exact .inl ht
    · exact .inl ht
  | missed => exact .inl rfl
  | resolving | stepping => exact .inl ht
  | retried | refused | answering => cases hr'
  | _ => cases hr

end Next

variable [Std.TransCmp cmp]

/-- A miss is one: a node that compares equal with `k` has a value. -/
theorem Fits.miss {cur : Ref} (hx : x.TidyTree t) (hs : t.Sorted cmp) (hf : t.Filled)
    (hl : (answering cur none).Fits cmp k x t) :
    (x.node cur).order cmp k ≠ .eq ∧ (x.node cur).towards cmp k = .nil := by
  obtain ⟨⟨i, hi⟩, hv⟩ := hl
  split_ifs at hv with ho
  · obtain ⟨-, p, c, l, a, u, rfl, -, -, ha⟩ := hi.found hx hs ho
    have hmem : a ∈ (p.plug (.node c l a u)).rows := by simp [Path.rows_plug, Shape.rows]
    exact absurd (ha.trans hv) (hf a hmem).2
  · exact ⟨ho, hv.1⟩

/-- As long as a lookup trusts that a miss will be final it is on the way of the search, unless it
takes up a child that is not. -/
theorem Next.onPath (h : Next cmp k x l l') (hx : x.TidyTree t) (hs : t.Sorted cmp)
    (hl : l.Fits cmp k x t) (hgoes : l.Goes cmp k x t l')
    (hpath : l.Trusts x.relocations → l.OnPath cmp k x t) (ht : l'.Trusts x.relocations) :
    l'.OnPath cmp k x t ∨ ∃ seen cur next child m, l = .checking seen cur next child m ∧
      x.ref? next = some child ∧ next ∉ t.trail cmp k := by
  cases hr' : l'.place with
  | none => exact .inl fun r hr => absurd (hr'.symm.trans hr) (by simp)
  | some r' =>
    have hplace : (∀ i, x.At t r' i → t.Meets cmp k i) → l'.OnPath cmp k x t := by
      intro h r hr
      obtain rfl := Option.some.inj (hr'.symm.trans hr)
      exact h
    have hgoes := hgoes r' hr'
    cases hr : l.place with
    | none =>
      rw [hr] at hgoes
      rcases hgoes with rfl | ⟨seen, cur, next, m, rfl, hnext⟩
      · exact .inl (hplace fun i hi => .inl (hx.sound.inj _ _ _ hi.ref hx.sound.anchor))
      · by_cases htrail : next ∈ t.trail cmp k
        · refine .inl (hplace fun i hi => .inr ?_)
          rwa [hx.sound.inj _ _ _ hi.ref hnext]
        · exact .inr ⟨seen, cur, next, r', m, rfl, hnext, htrail⟩
    | some r =>
      rw [hr] at hgoes
      refine .inl (hplace fun i' hi' => ?_)
      rcases h.trusts hl hr hr' ht with ht | ho
      · obtain ⟨-, i, hi⟩ := hl.at_place hr
        exact (hgoes i i' hi hi').2 (hpath ht r hr i hi)
      · exact (hi'.found hx hs ho).1

omit [Std.TransCmp cmp] in
theorem astray_iff {r : Ref} (hr : l.place = some r) :
    l.Astray cmp k x t ↔ ∀ i, x.At t r i → ¬t.Meets cmp k i := by
  cases l with
  | missed | resolving | stepping | moving | answering =>
    cases hr
    exact Iff.rfl
  | _ => cases hr

theorem Next.astray (h : Next cmp k x l l') (hx : x.TidyTree t) (hs : t.Sorted cmp)
    (hl : l.Fits cmp k x t) (hgoes : l.Goes cmp k x t l') (hast : l.Astray cmp k x t)
    (hl' : ¬l'.Anew) : l'.Astray cmp k x t := by
  cases hr : l.place with
  | none =>
    cases h with
    | start | atTop | entering | checking | unlinked => exact hast.elim
    | backing | apartParent | apartChild | retreating => trivial
    | restarting => exact absurd trivial hl'
    | againParent | againChild =>
      unfold rejoin at hl' ⊢
      split_ifs at hl' ⊢
      · exact absurd trivial hl'
      · trivial
    | _ => cases hr
  | some r =>
    have hoff := (astray_iff hr).1 hast
    obtain ⟨-, i, hi⟩ := hl.at_place hr
    have hnext : ∀ {r'}, l'.place = some r' → l'.Astray cmp k x t := by
      intro r' hr'
      have hgoes := hgoes r' hr'
      rw [hr] at hgoes
      exact (astray_iff hr').2 fun i' hi' hm => hoff i hi ((hgoes i i' hi hi').1 hm)
    cases h with
    | retried | refused => trivial
    | answering =>
      cases hr
      have hv := hl.2
      split_ifs at hv with ho
      · exact absurd (hi.found hx hs ho).1 (hoff i hi)
      · exact hv.2
    | moving =>
      obtain ⟨-, hat, rfl⟩ := hl
      exact hnext (Fits.visit cmp k _ hat).2.2
    | missed | resolving | stepping => exact hnext rfl
    | _ => cases hr

/-! ## When others write -/

section

variable (hc : Changes cmp g x x' t t') (hs : t.Sorted cmp) (hl : l.Fits cmp k x t)
  (hheld : ∀ r ∈ l.nodes, (g r).locked = false)

include hc hl hheld

omit [Std.TransCmp cmp] in
/-- The lookup stays in its place. -/
theorem Fits.stays {r : Ref} {i : NodeId} (hr : l.place = some r) (hi : x'.At t' r i) :
    x.At t r i ∧ (g r).locked = false := by
  obtain ⟨hmem, j, hj⟩ := hl.at_place hr
  obtain ⟨hj', -⟩ := hc.place hj (hheld r hmem)
  obtain rfl := hc.after.sound.inj _ _ _ hi.ref hj'.ref
  exact ⟨hj, hheld r hmem⟩

include hs

theorem Fits.onPath_changes (hf : t.Filled) (hpath : l.Trusts x.relocations → l.OnPath cmp k x t)
    (hcount : x'.relocations = x.relocations + 1 → l.seen ≠ some x'.relocations)
    (ht : l.Trusts x'.relocations) : l.OnPath cmp k x' t' := by
  intro r hr i hi'
  obtain ⟨hi, hg⟩ := hl.stays hc hheld hr hi'
  rcases hc.relocations with hrel | hmoved
  · rw [hrel] at ht
    rcases hc.meets hs hi hg (hpath ht r hr i hi) with h | ⟨-, hm⟩
    · exact absurd (hrel.symm.trans h) (by simp)
    · exact hm
  · cases l with
    | answering cur v =>
      cases v with
      | none =>
        cases hr
        obtain ⟨ho, hn⟩ := hl.miss hc.before hs hf
        exact hc.meets_of_miss hs hi hg ho hn (hpath trivial r rfl i hi)
      | some v => cases ht
    | _ => exact absurd ht (hcount hmoved)

theorem Astray.changes (hk : t'.Has cmp k) (hast : l.Astray cmp k x t) :
    l.Astray cmp k x' t' := by
  cases hr : l.place with
  | none =>
    cases l with
    | missed | resolving | stepping | moving | answering => cases hr
    | _ => exact hast
  | some r =>
    refine (astray_iff hr).2 fun i hi' hm => ?_
    obtain ⟨hi, hg⟩ := hl.stays hc hheld hr hi'
    exact (astray_iff hr).1 hast i hi (hc.meets_of_has hs hi hg hk hm)

end

end LatchTree.Lookup
