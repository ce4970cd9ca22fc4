import LatchTree.Proofs.Check.Exam
import LatchTree.Proofs.Trace

/-!
The check of a settled tree comes to its end, whatever the comparison of keys says: all ids that it
looks at are in use. It leaves the tree as it is.
-/

namespace LatchTree

variable {K V α β : Type} {cmp : K → K → Ordering} {x : Content K V} {t : Shape K V} {m : ℕ}

namespace Tree

/-! ## Examinations that meet no fault -/

namespace Exam

variable {e : Exam K V α} {P : α → Prop}

/-- The examination comes to an end, at a rule broken or with an answer that has `P`. -/
def Returns (x : Content K V) (m : ℕ) (e : Exam K V α) (P : α → Prop) : Prop :=
  ∃ res : Except (Violation K) α, Program.Observes x m e.run (.ok res) ∧ ∀ a, res = .ok a → P a

namespace Returns

theorem pure {a : α} (h : P a) : (Pure.pure a : Exam K V α).Returns x m P :=
  ⟨.ok a, .pure _, fun _ hb => Except.ok.inj hb ▸ h⟩

theorem throw (v : Violation K) : (MonadExcept.throw v : Exam K V α).Returns x m P :=
  ⟨.error v, .pure _, fun _ hb => absurd hb (by simp)⟩

theorem require (ok : Bool) (v : Violation K) :
    (Exam.require ok v : Exam K V Unit).Returns x m fun _ => True := by
  unfold Exam.require
  cases ok with
  | true => exact pure trivial
  | false => exact throw v

theorem bind {f : α → Exam K V β} {Q : β → Prop} (he : e.Returns x m P)
    (hf : ∀ a, P a → (f a).Returns x m Q) : (e >>= f).Returns x m Q := by
  obtain ⟨res, hres, hP⟩ := he
  cases res with
  | error v => exact ⟨.error v, .bind hres (.pure _), fun _ hb => absurd hb (by simp)⟩
  | ok a =>
    obtain ⟨res', hres', hQ⟩ := hf a (hP a rfl)
    exact ⟨res', .bind hres hres', hQ⟩

/-- A look at a node of the tree. -/
theorem reading {id : NodeId} {body : Node K V → Exam K V α} (hx : x.TidyTree t)
    (hid : id ∈ NodeId.nil :: NodeId.anchor :: t.ids) (hroom : m + 3 < Latch.Word.room)
    (hbody : ∀ n, x.heap id = some n → (body n).Returns x (m + 1) P) :
    (Exam.reading id body).Returns x m P := by
  obtain ⟨r, hr⟩ := hx.ref_some hid
  obtain ⟨res, hres, hP⟩ := hbody _ (Content.heap_of_ref hr)
  exact ⟨res, .reading hr (hx.sound.made id r hr) hroom hres, hP⟩

end Returns

end Exam

/-! ## The check -/

open Exam

/-- The ids of the frame are those of nodes of the tree, or reserved. -/
structure Frame.Within (t : Shape K V) (f : Frame) : Prop where
  id : f.id ∈ NodeId.anchor :: t.ids
  lo : f.lo ∈ NodeId.nil :: NodeId.anchor :: t.ids
  hi : f.hi ∈ NodeId.nil :: NodeId.anchor :: t.ids

section

variable (hx : x.TidyTree t) {count : ℕ} {f : Frame} {key : K} {id : NodeId}

theorem endPath_returns (key : K) (blacks : ℕ) (y : Tally) :
    (endPath key blacks y : Exam K V Tally).Returns x m fun _ => True := by
  unfold endPath
  cases y.target with
  | none => exact .pure trivial
  | some n =>
    simp only
    split_ifs
    · exact .pure trivial
    · exact .throw _

include hx

theorem checkLower_returns (hroom : m + 3 < Latch.Word.room)
    (hid : id ∈ NodeId.nil :: NodeId.anchor :: t.ids) :
    (checkLower cmp key id : Exam K V Unit).Returns x m fun _ => True := by
  unfold checkLower
  split_ifs
  · exact .pure trivial
  · exact .reading hx hid hroom fun n _ => .require ..

theorem checkUpper_returns (hroom : m + 3 < Latch.Word.room)
    (hid : id ∈ NodeId.nil :: NodeId.anchor :: t.ids) :
    (checkUpper cmp key id : Exam K V Unit).Returns x m fun _ => True := by
  unfold checkUpper
  split_ifs
  · exact .pure trivial
  · exact .reading hx hid hroom fun n _ => .require ..

theorem checkChild_returns (hroom : m + 3 < Latch.Word.room) (n : Node K V) (blacks : ℕ) (y : Tally)
    (hf : f.id ≠ .nil → f.Within t) :
    (checkChild id n key blacks f y).Returns x m fun res => ∀ f' ∈ res.1, f'.Within t := by
  unfold checkChild
  split_ifs with h
  · exact (endPath_returns ..).bind fun _ _ => .pure (by simp)
  · refine .reading hx (List.mem_cons_of_mem _ (hf h).id) hroom fun c _ =>
      (Returns.require ..).bind fun _ _ => (Returns.require ..).bind fun _ _ => .pure ?_
    simpa using hf h

theorem examine_returns (hf : f.Within t) (y : Tally) :
    (examine cmp count f y : Exam K V _).Returns x 0 fun res => ∀ f' ∈ res.1, f'.Within t := by
  have hid := List.mem_cons_of_mem NodeId.nil hf.id
  refine .reading hx hid (by decide) fun n hn => (Returns.require ..).bind fun _ _ => ?_
  have hlink : ∀ j ∈ [n.parent, n.left, n.right], j ≠ .nil → j ∈ NodeId.anchor :: t.ids :=
    fun j hj hne => (List.mem_cons.1 (hx.tree.links hf.id hn hj)).resolve_left hne
  cases n.key with
  | none => exact .throw _
  | some key =>
    have hroom : 1 + 3 < Latch.Word.room := by decide
    refine (checkLower_returns hx hroom hf.lo).bind fun _ _ =>
      (checkUpper_returns hx hroom hf.hi).bind fun _ _ =>
      (checkChild_returns hx hroom n _ _ ?_).bind fun left hleft =>
      (checkChild_returns hx hroom n _ _ ?_).bind fun right hright => .pure fun f' hf' => ?_
    · exact fun h => ⟨hlink _ (by simp) h, hf.lo, hid⟩
    · exact fun h => ⟨hlink _ (by simp) h, hid, hf.hi⟩
    rcases List.mem_append.1 hf' with h | h
    · exact hright f' (Option.mem_toList.1 h)
    · exact hleft f' (Option.mem_toList.1 h)

theorem walk_returns (levels : ℕ) (hf : f.Within t) (y : Tally) :
    (walk cmp count levels f y : Exam K V _).Returns x 0 fun _ => True := by
  induction levels generalizing f y with
  | zero => exact .throw _
  | succ levels ih =>
    refine (examine_returns hx hf y).bind fun ⟨children, y'⟩ hchildren => ?_
    have hfold : ∀ (l : List Frame) (y : Tally), (∀ f ∈ l, f.Within t) →
        (l.foldlM (fun y c => walk cmp count levels c y) y : Exam K V _).Returns x 0
          fun _ => True := by
      intro l
      induction l with
      | nil => exact fun y _ => .pure trivial
      | cons f l ihl =>
        intro y hl
        rw [List.forall_mem_cons] at hl
        exact (ih hl.1 y).bind fun y' _ => ihl y' hl.2
    exact hfold children y' hchildren

theorem check_returns (cmp : K → K → Ordering) (count : ℕ) :
    (check cmp count : Exam K V Report).Returns x 0 fun _ => True := by
  have hreserved : (checkReserved : Exam K V Unit).Returns x 0 fun _ => True :=
    .reading hx (by simp) (by decide) fun _ _ => (Returns.require ..).bind fun _ _ =>
      .reading hx (by simp) (by decide) fun _ _ => .require ..
  refine hreserved.bind fun _ _ => (Returns.reading (P := (· ∈ NodeId.nil :: t.ids)) hx (by simp)
    (by decide) fun n hn => .pure ?_).bind fun root hroot => ?_
  · obtain rfl := Option.some.inj (hn.symm.trans hx.tree.anchor)
    exact t.top_mem
  · unfold checkFrom
    split_ifs with hnil
    · exact (Returns.require ..).bind fun _ _ => .pure trivial
    · have hmem := (List.mem_cons.1 hroot).resolve_left hnil
      refine (Returns.reading (P := fun _ => True) hx (by simp [hmem]) (by decide) fun n _ =>
        (Returns.require ..).bind fun _ _ => .require ..).bind fun _ _ =>
        (walk_returns hx _ ⟨by simp [Frame.top, hmem], by simp [Frame.top], by simp [Frame.top]⟩ _).bind
        fun _ _ => (Returns.require ..).bind fun _ _ => .pure trivial

end

end Tree

/-- The check ends, and nothing has changed. -/
theorem Store.UnlatchedTree.check {s : Store K V} (hs : s.UnlatchedTree t) (cmp : K → K → Ordering)
    (count : ℕ) : ∃ res, s.check cmp count = (.ok res, s) := by
  obtain ⟨res, hres, -⟩ := Tree.check_returns hs.settled.tidy cmp count
  obtain ⟨s', hx, hw, hrun⟩ := hres _ s [] _ Pure.pure rfl hs.shows fun _ => le_rfl
  rw [bind_pure] at hrun
  have hrun' : s.check cmp count = (.ok res, s') := hrun
  have hspin := Program.spin_run (Tree.check cmp count).run s []
  rw [hrun] at hspin
  exact ⟨res, by rw [hrun', eq_of_content hs.shows hw hx hspin]⟩

end LatchTree
