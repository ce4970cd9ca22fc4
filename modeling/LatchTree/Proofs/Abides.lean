import LatchTree.Proofs.Sections

/-!
Rules that a program abides by whatever it is answered.
-/

namespace LatchTree.Program

variable {K V α β : Type} {P : Request K V → Prop} {Q Q' : α → Prop}

/-- All requests of the program have `P`, and its result has `Q`, whatever the answers are. -/
def Abides (P : Request K V → Prop) : Program K V α → (α → Prop) → Prop
  | .done a, Q => Q a
  | .halt _, _ => True
  | .ask q next, Q => P q ∧ ∀ a, (next a).Abides P Q

namespace Abides

variable {p : Program K V α}

theorem mono (h : p.Abides P Q) (hQ : ∀ a, Q a → Q' a) : p.Abides P Q' := by
  induction p with
  | done a => exact hQ a h
  | halt f => trivial
  | ask q next ih => exact ⟨h.1, fun a => ih a (h.2 a)⟩

theorem bind {Q : β → Prop} {f : α → Program K V β} (h : p.Abides P fun a => (f a).Abides P Q) :
    (p >>= f).Abides P Q := by
  induction p with
  | done a => exact h
  | halt f => trivial
  | ask q next ih => exact ⟨h.1, fun a => ih a (h.2 a)⟩

theorem pure {a : α} (h : Q a) : (Pure.pure a : Program K V α).Abides P Q := h

theorem request {q : Request K V} {Q : q.Answer → Prop} (hq : P q) (h : ∀ a, Q a) :
    (Program.request q).Abides P Q :=
  ⟨hq, h⟩

theorem reading {body : Node K V → Program K V α} (id : NodeId) (hresolve : ∀ id, P (.resolve id))
    (hread : ∀ r, P (.read r)) (hleave : ∀ r, P (.leave r))
    (hbody : ∀ n, (body n).Abides P Q) : (Program.reading id body).Abides P Q :=
  .bind (.request (hresolve id) fun r => .bind (.request (hread r) fun n =>
    .bind ((hbody n).mono fun _ ha => .bind (.request (hleave r) fun _ => .pure ha))))

/-! ## Lock sets -/

section

variable (hresolve : ∀ id, P (.resolve id)) (held : Option (NodeId × Ref))

include hresolve

theorem locate {Q : LockSet → Prop} {ids : List NodeId} (h : ∀ ls, ls.map Prod.fst = ids → Q ls) :
    (LockSet.locate held ids).Abides P Q := by
  induction ids generalizing Q with
  | nil => exact h [] rfl
  | cons id ids ih =>
    have hrest : ∀ r, (LockSet.locate held ids).Abides P fun ls => Q ((id, r) :: ls) :=
      fun r => ih fun ls hls => h _ (congrArg (id :: ·) hls)
    have hfind : ∀ Q : Ref → Prop, (∀ r, Q r) → (LockSet.find held id).Abides P Q := by
      intro Q hQ
      unfold LockSet.find
      cases held with
      | none => exact .request (hresolve id) hQ
      | some m =>
        simp only
        split_ifs
        · exact .pure (hQ _)
        · exact .request (hresolve id) hQ
    exact .bind (hfind _ fun r => .bind ((hrest r).mono fun ls hls => hls))

theorem within {ids : List NodeId} {w : Section K V} {Q : Option V → Prop}
    (hupgrade : ∀ r, P (.upgrade r)) (hlatch : ∀ r, P (.latch r)) (hlock : ∀ r, P (.lock r))
    (hunlock : ∀ r, P (.unlock r))
    (hcommit : ∀ ls : LockSet, (ls.map Prod.fst).Nodup → P (.commit ls w)) (hQ : ∀ v, Q v) :
    (LockSet.within ids held w).Abides P Q := by
  have hacquire : ∀ ls, (LockSet.acquire held ls).Abides P fun _ => True := by
    intro ls
    induction ls with
    | nil => trivial
    | cons m ls ih =>
      have hclose : (LockSet.close held m.1 m.2).Abides P fun _ => True := by
        by_cases hany : held.any (·.1 == m.1) = true
        · rw [show LockSet.close held m.1 m.2 = Program.request (.upgrade m.2) from if_pos hany]
          exact .request (hupgrade _) fun _ => trivial
        · rw [show LockSet.close held m.1 m.2 = Program.request (.latch m.2) from if_neg hany]
          exact .request (hlatch _) fun _ => trivial
      exact .bind (hclose.mono fun _ _ => .bind (.request (hlock _) fun _ => ih))
  have hrelease : ∀ ls, (LockSet.release ls).Abides P fun _ => True := by
    intro ls
    induction ls with
    | nil => trivial
    | cons m ls ih => exact .bind (.request (hunlock _) fun _ => ih)
  have hcheck : ∀ ls, (LockSet.checkHeld held ls).Abides P fun _ => True := by
    intro ls
    unfold LockSet.checkHeld
    cases held with
    | none => trivial
    | some m =>
      simp only
      split_ifs
      · trivial
      · trivial
  refine .bind (.bind (locate hresolve held fun ls hls => ?_))
  have hnodup : ((LockSet.byRank ls).map Prod.fst).Nodup := by
    rw [((LockSet.byRank_perm ls).map _).nodup_iff, hls]
    exact LockSet.distinct_nodup ids
  refine .bind ((hacquire _).mono fun _ _ => .bind ((hcheck _).mono fun _ _ => .pure ?_))
  exact .bind (.request (hcommit _ hnodup) fun v =>
    .bind ((hrelease _).mono fun _ _ => .pure (hQ v)))

end

end Abides

end LatchTree.Program
