import LatchTree.Proofs.Abides
import LatchTree.Proofs.Check.Total

/-!
No call waits for itself. Whatever the comparison of keys says, a call on a settled tree that no other
thread disturbs is granted every latch as it asks for it, and when it is through no latch is held.
-/

namespace LatchTree

variable {K V α β : Type} {cmp : K → K → Ordering} {k : K} {t : Shape K V} {s s' : Store K V}

/-- The request is served at once, and not by turning it away from a node that is closed. -/
def Request.Granted (s : Store K V) (q : Request K V) : Prop :=
  q.enabled s = true ∧ ∀ r, q = .tryRead r → (s.word r).admitsReader = true

/-- No latch is held, neither of a node, erased ones too, nor that of the slots. -/
structure Store.Unlatched (s : Store K V) : Prop where
  table : s.table = .free
  word : ∀ r, s.word r = .free

theorem Store.Shows.unlatched (hw : s.Shows (fun _ => 0) .free) : s.Unlatched :=
  ⟨hw.table, fun r => (hw.word r).trans Latch.Word.free_eq_compose.symm⟩

theorem Store.Unlatched.shows (hs : s.Unlatched) : s.Shows (fun _ => 0) .free :=
  ⟨hs.table, fun r => (hs.word r).trans Latch.Word.free_eq_compose, fun _ => by decide,
    fun _ => Nat.zero_le 1, fun _ _ => rfl⟩

namespace Program

/-- From `s` on, with no other thread about, all requests of the program are granted. -/
def Granted (s : Store K V) : Program K V α → Prop
  | .done _ | .halt _ => True
  | .ask q next => q.Granted s ∧
      match q.serve s with
      | (.ok a, s) => Granted s (next a)
      | (.error _, _) => True

/-- The program comes to its end with `out`. All that it asks for is granted, and no latch is held when it
is through. -/
structure Unhindered (p : Program K V α) (s : Store K V) (out : Except Halt α × Store K V) : Prop where
  run : p.run s [] = out
  granted : p.Granted s
  ends : ∃ a s', out = (.ok a, s') ∧ s'.Unlatched

/-! ## Programs that keep the rules for latches -/

theorem Ensures.granted {R : Shape K V → Prop} {g : Grips} {Q : α → Content K V → Grips → Prop}
    {p : Program K V α} (h : p.Ensures cmp R s.content g Q) (hw : s.Shows (fun _ => 0) g) :
    p.Granted s := by
  induction p generalizing s g with
  | done a => trivial
  | halt f => trivial
  | ask q next ih =>
    obtain ⟨hq, a, x', hyields, -, hnext⟩ := h
    obtain ⟨hans, rfl⟩ := hyields s rfl
    have hen := hw.enabled hq fun _ _ => rfl
    rw [Granted, show q.serve s = (.ok a, (q.serve s).2) from Prod.ext hans rfl]
    refine ⟨⟨hen, ?_⟩, ih a hnext (hw.serve hq hen)⟩
    rintro r rfl
    exact hq.elim

theorem Ensures.unhindered {R : Shape K V → Prop} {Q : α → Content K V → Grips → Prop}
    {p : Program K V α} (h : p.Ensures cmp R s.content .free fun a x g => g = .free ∧ Q a x g)
    (hw : s.Shows (fun _ => 0) .free) : p.Unhindered s (p.run s []) := by
  obtain ⟨a, s', g, hrun, ⟨rfl, -⟩, hw'⟩ := h.run hw []
  exact ⟨rfl, h.granted hw, a, s', hrun, hw'.unlatched⟩

/-! ## Programs that come to their end -/

/-- The program waits for the nodes that it reads, and tries none. -/
def Waits (p : Program K V α) : Prop :=
  p.Abides (fun q => ∀ r, q ≠ .tryRead r) fun _ => True

/-- A program that comes to its end has not had to wait. -/
theorem Waits.granted {p : Program K V α} {hs : List Hold} {a : α} (hp : p.Waits)
    (hrun : p.run s hs = (.ok a, s')) : p.Granted s := by
  induction p generalizing s hs with
  | done b => trivial
  | halt h => trivial
  | ask q next ih =>
    rw [Program.run] at hrun
    by_cases hen : q.enabled s = true
    · rw [if_pos hen] at hrun
      rw [Granted]
      refine ⟨⟨hen, fun r hr => absurd hr (hp.1 r)⟩, ?_⟩
      rcases hserve : q.serve s with ⟨f | b, s₁⟩
      · trivial
      · rw [hserve] at hrun
        exact ih b (hp.2 b) hrun
    · rw [if_neg hen] at hrun
      cases hrun

end Program

/-! ## Lookups -/

namespace Lookup

/-- A lookup as a program, for at most `fuel` turns. -/
def program (cmp : K → K → Ordering) (k : K) : ℕ → Lookup K V → Program K V (Option V)
  | 0, _ => .halt .endless
  | fuel + 1, l =>
    match l.turn cmp k with
    | .done v => .done v
    | .fault f => .halt (.fault f)
    | .ask q next => .ask q fun a => program cmp k fuel (next a)

variable {fuel : ℕ} {l : Lookup K V}

theorem run_program (hs : List Hold) :
    (program cmp k fuel l).run s hs = Lookup.run cmp k s hs fuel l := by
  induction fuel generalizing s hs l with
  | zero => rfl
  | succ fuel ih =>
    rw [program, Lookup.run]
    cases l.turn cmp k with
    | done v => rfl
    | fault f => rfl
    | ask q next =>
      simp only [Program.run]
      split_ifs
      · rcases q.serve s with ⟨f | a, s₁⟩
        · rfl
        · exact ih _
      · rfl

/-- A lookup that nobody disturbs may enter every node that it wants to. -/
theorem Fits.granted (hx : s.content.TidyTree t) (hl : l.Fits cmp k s.content t)
    (hw : s.Shows (fun r => l.nodes.count r) .free) : (program cmp k fuel l).Granted s := by
  induction fuel generalizing s l with
  | zero => trivial
  | succ fuel ih =>
    rw [program]
    cases hq : l.turn cmp k with
    | done v => trivial
    | fault f => trivial
    | ask q next =>
      have hen := enabled_of_turn hw.admits hq
      have hw' : s.Shows (fun r => (fun _ => 0) r + l.nodes.count r) .free := by
        simpa only [Nat.zero_add] using hw
      obtain ⟨a, s', ha⟩ := hl.serves hx hw' (fun r _ _ => hl.room (fun _ => Nat.zero_le _) r) hq hen
      have hshows := ha.shows
      simp only [Nat.zero_add] at hshows
      simp only [Program.Granted, ha.serve]
      refine ⟨⟨hen, fun r _ => (hw.admits r).1⟩, ?_⟩
      exact ih (ha.content ▸ hx) (ha.content ▸ ha.fits) hshows

end Lookup

/-! ## The check -/

namespace Tree

namespace Exam

def Waits (e : Exam K V α) : Prop := Program.Waits e.run

namespace Waits

theorem pure (a : α) : (Pure.pure a : Exam K V α).Waits := trivial

theorem throw (v : Violation K) : (MonadExcept.throw v : Exam K V α).Waits := trivial

theorem require (ok : Bool) (v : Violation K) : (Exam.require ok v : Exam K V Unit).Waits := by
  unfold Exam.require
  cases ok with
  | true => exact pure ()
  | false => exact throw v

theorem bind {e : Exam K V α} {f : α → Exam K V β} (he : e.Waits) (hf : ∀ a, (f a).Waits) :
    (e >>= f).Waits := by
  refine Program.Abides.bind (Program.Abides.mono he fun res _ => ?_)
  cases res with
  | error v => trivial
  | ok a => exact hf a

theorem reading (id : NodeId) {body : Node K V → Exam K V α} (hbody : ∀ n, (body n).Waits) :
    (Exam.reading id body).Waits :=
  Program.Abides.reading id (by simp) (by simp) (by simp) hbody

end Waits

end Exam

open Exam

theorem checkChild_waits (id : NodeId) (n : Node K V) (key : K) (blacks : ℕ) (f : Frame)
    (y : Tally) : (checkChild id n key blacks f y).Waits := by
  unfold checkChild
  split_ifs
  · refine .bind ?_ fun _ => .pure _
    unfold endPath
    cases y.target with
    | none => exact .pure _
    | some m =>
      simp only
      split_ifs
      · exact .pure _
      · exact .throw _
  · exact .reading _ fun c => .bind (.require ..) fun _ => .bind (.require ..) fun _ => .pure _

theorem examine_waits (cmp : K → K → Ordering) (count : ℕ) (f : Frame) (y : Tally) :
    (examine cmp count f y : Exam K V _).Waits := by
  refine .reading _ fun n => .bind (.require ..) fun _ => ?_
  cases n.key with
  | none => exact .throw _
  | some key =>
    refine .bind ?_ fun _ => .bind ?_ fun _ => .bind (checkChild_waits ..) fun _ =>
      .bind (checkChild_waits ..) fun _ => .pure _
    · unfold checkLower
      split_ifs
      · exact .pure _
      · exact .reading _ fun _ => .require ..
    · unfold checkUpper
      split_ifs
      · exact .pure _
      · exact .reading _ fun _ => .require ..

theorem walk_waits (cmp : K → K → Ordering) (count levels : ℕ) (f : Frame) (y : Tally) :
    (walk cmp count levels f y : Exam K V _).Waits := by
  induction levels generalizing f y with
  | zero => exact .throw _
  | succ levels ih =>
    refine .bind (examine_waits ..) fun ⟨children, y'⟩ => ?_
    have hfold : ∀ (l : List Frame) (y : Tally),
        (l.foldlM (fun y c => walk cmp count levels c y) y : Exam K V _).Waits := by
      intro l
      induction l with
      | nil => exact fun y => .pure y
      | cons f l ihl => exact fun y => .bind (ih f y) ihl
    exact hfold children y'

theorem check_waits (cmp : K → K → Ordering) (count : ℕ) :
    (check cmp count : Exam K V Report).Waits := by
  have hreserved : (checkReserved : Exam K V Unit).Waits :=
    .reading _ fun _ => .bind (.require ..) fun _ => .reading _ fun _ => .require ..
  refine .bind hreserved fun _ => .bind (.reading _ fun _ => .pure _) fun root => ?_
  unfold checkFrom
  split_ifs
  · exact .bind (.require ..) fun _ => .pure _
  · exact .bind (.reading _ fun _ => .bind (.require ..) fun _ => .require ..) fun _ =>
      .bind (walk_waits ..) fun _ => .bind (.require ..) fun _ => .pure _

end Tree

/-! ## Calls -/

namespace Store

namespace UnlatchedTree

variable (hs : s.UnlatchedTree t) (cmp : K → K → Ordering)

include hs

theorem unhindered_update (u : Update K V) :
    (u.program cmp s.patience).Unhindered s (s.update cmp u) :=
  (u.ensures (R := fun _ => True) cmp hs.settled (size_lt_patience hs.settled.tidy)
    fun _ _ _ => trivial).unhindered hs.shows

theorem unhindered_find (k : K) : (Tree.search cmp s.patience k).Unhindered s (s.find cmp k) := by
  have hsearch : (Tree.search cmp s.patience k).Ensures cmp (fun _ => True) s.content .free
      fun _ _ g => g = .free ∧ True :=
    .search hs.settled.tidy (Grips.holding_calm none) (size_lt_patience hs.settled.tidy)
      fun _ _ => ⟨rfl, trivial⟩
  exact hsearch.unhindered hs.shows

theorem unhindered_findCoupled (k : K) :
    (Lookup.program cmp k (4 * s.patience) .start).Unhindered s (s.findCoupled cmp k) where
  run := Lookup.run_program []
  granted := Lookup.Fits.granted hs.settled.tidy trivial hs.shows
  ends := ⟨_, s, hs.findCoupled cmp k, hs.shows.unlatched⟩

theorem unhindered_validate :
    (Tree.check cmp s.len.toNat).run.Unhindered s (s.validate cmp) := by
  obtain ⟨res, hres⟩ := hs.check cmp s.len.toNat
  exact ⟨rfl, (Tree.check_waits cmp _).granted hres, res, s, hres, hs.shows.unlatched⟩

end UnlatchedTree

/-- On a tree that updates have made, whatever the comparison of keys says, each call that no other
thread disturbs is granted every latch as it asks for it. It comes to its end, and then no latch is
held. -/
theorem calls_granted (cmp : K → K → Ordering) (spin : Bool) (us : List (Update K V)) :
    ∃ olds s, (Store.empty spin).updates cmp us = (.ok olds, s) ∧ s.Unlatched ∧
      (∀ k v, (Tree.set cmp s.patience k v).Unhindered s (s.set cmp k v)) ∧
      (∀ k, (Tree.remove cmp s.patience k).Unhindered s (s.remove cmp k)) ∧
      (∀ k, (Tree.search cmp s.patience k).Unhindered s (s.find cmp k)) ∧
      (∀ k, (Lookup.program cmp k (4 * s.patience) .start).Unhindered s (s.findCoupled cmp k)) ∧
      (Tree.check cmp s.len.toNat).run.Unhindered s (s.validate cmp) := by
  obtain ⟨olds, s, t, hrun, hs⟩ := (UnlatchedTree.empty spin).updates cmp us
  exact ⟨olds, s, hrun, hs.shows.unlatched, fun k v => hs.unhindered_update cmp (.set k v),
    fun k => hs.unhindered_update cmp (.remove k), hs.unhindered_find cmp,
    hs.unhindered_findCoupled cmp, hs.unhindered_validate cmp⟩

end Store

end LatchTree
