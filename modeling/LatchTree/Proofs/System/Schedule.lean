import LatchTree.Proofs.System.Basic

/-!
Runs that are computed from a schedule, to show by example what can happen.
-/

namespace LatchTree

namespace Lookup

variable {K V : Type}

instance (l : Lookup K V) : Decidable l.Coupled :=
  match l with
  | start | atTop _ | entering _ _ | missed _ _ | resolving _ _ _ _ | stepping _ _ _ _ _
  | moving _ _ _ _ | retreating _ _ | answering _ _ | finished _ => isTrue trivial
  | backing _ _ _ _ | apart _ _ _ _ | againParent _ _ _ _ _ | againChild _ _ _ _ _
  | checking _ _ _ _ _ => isFalse id

/-- The answer of a lookup that is over. -/
def answer? : Lookup K V → Option (Option V)
  | finished v => some v
  | _ => none

theorem finished_of_answer {l : Lookup K V} {v : Option V} (h : l.answer? = some v) :
    l = finished v := by
  cases l with
  | finished => exact congrArg finished (Option.some.inj h)
  | _ => cases h

end Lookup

/-- Whether the links from `id` lead to an entry with the key `k`. -/
def Store.reaches {K V : Type} (cmp : K → K → Ordering) (k : K) (s : Store K V) :
    ℕ → NodeId → Bool
  | 0, _ => false
  | fuel + 1, id =>
    match s.node? id with
    | some n => n.order cmp k = .eq || reaches cmp k s fuel (n.towards cmp k)
    | none => false

theorem Shape.Hangs.has_of_reaches {K V : Type} {cmp : K → K → Ordering} {k : K} {s : Store K V}
    {t : Shape K V} {parent : NodeId} {fuel : ℕ} (ht : t.Hangs s.node? parent)
    (hnil : s.node? .nil = some .reserved) (h : s.reaches cmp k fuel t.top = true) :
    t.Has cmp k := by
  induction fuel generalizing t parent with
  | zero => cases h
  | succ fuel ih =>
    cases t with
    | nil =>
      simp only [Store.reaches, Shape.top_nil, hnil, Bool.or_eq_true, decide_eq_true_eq] at h
      refine ih (t := .nil) (Shape.hangs_nil (q := parent)) (h.resolve_left ?_)
      simp [Node.order, Node.reserved]
    | node c l a u =>
      obtain ⟨ha, hl, hu⟩ := ht
      rw [Shape.top] at h
      simp only [Store.reaches, ha, Row.order_node, Node.towards, Bool.or_eq_true,
        decide_eq_true_eq] at h
      refine (Shape.has_join .left c l a u).2 (h.imp_right fun h => ?_)
      cases hord : a.order cmp k with
      | gt =>
        rw [hord] at h
        exact .inl (ih hl h)
      | lt | eq =>
        rw [hord] at h
        exact .inr (ih hu h)

namespace System

variable {K V : Type} {cmp : K → K → Ordering} {k : K} {c : System K V} {as : List (Action K V)}
  {p : System K V → Bool} {i : ℕ}

/-- A tree that the updates `us` have made, before the lookup has started. -/
def ready (cmp : K → K → Ordering) (us : List (Update K V)) : System K V :=
  ⟨((Store.empty true).updates cmp us).2, none, .start⟩

/-- Where the first steps of a schedule lead. -/
def follow (cmp : K → K → Ordering) (k : K) : System K V → List (Action K V) → ℕ → System K V
  | c, a :: as, i + 1 =>
    match c.step cmp k a with
    | some c' => follow cmp k c' as i
    | none => c
  | c, _, _ => c

/-- All steps of a schedule can be taken, and every state on the way has the property `p`. -/
def passes (cmp : K → K → Ordering) (k : K) (p : System K V → Bool) :
    System K V → List (Action K V) → Bool
  | c, [] => p c
  | c, a :: as =>
    p c &&
      match c.step cmp k a with
      | some c' => passes cmp k p c' as
      | none => false

theorem follow_zero : follow cmp k c as 0 = c := by
  cases as <;> rfl

theorem passes_cons {a : Action K V} (h : passes cmp k p c (a :: as) = true) :
    p c = true ∧ ∃ c', c.step cmp k a = some c' ∧ passes cmp k p c' as = true := by
  simp only [passes, Bool.and_eq_true] at h
  obtain ⟨hp, h⟩ := h
  split at h
  · exact ⟨hp, _, ‹_›, h⟩
  · cases h

theorem follow_succ {a : Action K V} {c' : System K V} (h : c.step cmp k a = some c') :
    follow cmp k c (a :: as) (i + 1) = follow cmp k c' as i := by
  simp only [follow, h]

theorem step_of_passes (h : passes cmp k p c as = true) (hi : i < as.length) :
    (follow cmp k c as i).step cmp k as[i] = some (follow cmp k c as (i + 1)) := by
  induction as generalizing c i with
  | nil => exact absurd hi (Nat.not_lt_zero i)
  | cons a as ih =>
    obtain ⟨-, c', hstep, h'⟩ := passes_cons h
    cases i with
    | zero =>
      rw [follow_succ hstep, follow_zero, follow_zero]
      exact hstep
    | succ i =>
      rw [follow_succ hstep, follow_succ hstep]
      exact ih h' (Nat.lt_of_succ_lt_succ hi)

theorem of_passes (h : passes cmp k p c as = true) (hi : i ≤ as.length) :
    p (follow cmp k c as i) = true := by
  induction as generalizing c i with
  | nil =>
    rw [Nat.le_zero.1 hi, follow_zero]
    exact h
  | cons a as ih =>
    obtain ⟨hp, c', hstep, h'⟩ := passes_cons h
    cases i with
    | zero => rwa [follow_zero]
    | succ i =>
      rw [follow_succ hstep]
      exact ih h' (Nat.le_of_succ_le_succ hi)

theorem Sound.linked_of_reaches {t : Shape K V} {g : Grips} {fuel : ℕ} (h : c.Sound cmp k t g)
    (hr : c.store.reaches cmp k fuel (c.store.node 1).left = true) : c.Linked cmp k := by
  rw [show c.store.node 1 = _ from h.tidy.node_anchor] at hr
  exact h.linked.2 (h.tidy.tree.hangs.has_of_reaches h.tidy.tree.sentinel hr)

/-- A schedule all of whose steps can be taken is that of a run. -/
theorem run_of_passes {us : List (Update K V)} (h : passes cmp k p (ready cmp us) as = true) :
    Run cmp k (follow cmp k (ready cmp us) as) as.length := by
  obtain ⟨olds, s, t, hrun, -⟩ := (Store.UnlatchedTree.empty true).updates cmp us
  refine ⟨⟨true, us, olds, ?_⟩, ?_, ?_, fun i hi => ⟨_, step_of_passes h hi⟩⟩
  · rw [follow_zero, ready, hrun]
  · rw [follow_zero, ready]
  · rw [follow_zero, ready]

end System

end LatchTree
