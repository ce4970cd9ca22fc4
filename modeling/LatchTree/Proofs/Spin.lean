import LatchTree.Proofs.Grip
import LatchTree.Tree.Operations

/-!
Whether waiting threads spin makes no difference to what a program answers and does: a store is its
content, the words of its latches, and a flag that nothing looks at.
-/

namespace LatchTree

variable {K V α : Type} {s s' : Store K V}

namespace Store

/-- The store, with threads that spin or not. -/
def withSpin (s : Store K V) (b : Bool) : Store K V :=
  { s with spin := b }

theorem Shows.withSpin {n : Ref → Nat} {g : Grips} (hs : s.Shows n g) (b : Bool) :
    (s.withSpin b).Shows n g :=
  hs.congr hs.table fun _ => rfl

/-- The nodes and the words of their latches are all that there is in the cells. -/
theorem eq_of_content {n : Ref → Nat} {g : Grips} (hw : s.Shows n g) (hw' : s'.Shows n g)
    (hx : s'.content = s.content) (hspin : s'.spin = s.spin) : s' = s := by
  have hsize : s'.cells.size = s.cells.size := congrArg Content.made hx
  have hcells : s'.cells = s.cells := by
    refine Array.ext hsize fun r hr' hr => ?_
    have hnode : s'.node r = s.node r := congrFun (congrArg Content.node hx) r
    have hword : s'.word r = s.word r := (hw'.word r).trans (hw.word r).symm
    simp only [node, word, Array.getElem?_eq_getElem hr, Array.getElem?_eq_getElem hr'] at hnode hword
    generalize s'.cells[r] = c' at hnode hword ⊢
    cases c'
    simp_all
  have htable : s'.table = s.table := hw'.table.trans hw.table.symm
  obtain ⟨-, -, hslots, hvacant, hentries, hrelocations⟩ := Content.mk.inj hx
  cases s'
  simp_all

/-! ## Runs -/

theorem unwind_withSpin (s : Store K V) (b : Bool) (hs : List Hold) :
    (s.withSpin b).unwind hs = (s.unwind hs).withSpin b := by
  induction hs generalizing s with
  | nil => rfl
  | cons h hs ih =>
    have hlet : (s.withSpin b).letGo h = (s.letGo h).withSpin b := by cases h <;> rfl
    rw [unwind, List.foldl_cons, hlet]
    exact ih _

theorem commit_withSpin (s : Store K V) (b : Bool) (ls : LockSet) (w : Section K V) :
    (s.withSpin b).commit ls w = ((s.commit ls w).1, (s.commit ls w).2.withSpin b) := by
  have hput : ∀ (l : List ((NodeId × Ref) × (NodeId × Node K V))) (s : Store K V),
      l.foldl (fun s m => s.mapNode m.1.2 fun _ => m.2.2) (s.withSpin b) =
        (l.foldl (fun s m => s.mapNode m.1.2 fun _ => m.2.2) s).withSpin b := by
    intro l
    induction l with
    | nil => exact fun s => rfl
    | cons m l ih => exact fun s => ih (s.mapNode m.1.2 fun _ => m.2.2)
  rcases hrun : w.edit.run.run (s.members ls) with ⟨result, ms⟩
  have hrun' : w.edit.run.run ((s.withSpin b).members ls) = (result, ms) := hrun
  have hs := hput (ls.zip ms) s
  simp only [commit, hrun, hrun', putMembers]
  cases result with
  | error f => exact Prod.ext rfl hs
  | ok v =>
    rw [hs]
    cases w.relocates <;> rfl

end Store

theorem Request.serve_withSpin (q : Request K V) (s : Store K V) (b : Bool) :
    q.serve (s.withSpin b) = ((q.serve s).1, (q.serve s).2.withSpin b) := by
  cases q with
  | commit ls w => exact s.commit_withSpin b ls w
  | tryRead r =>
    simp only [serve, show (s.withSpin b).word r = s.word r from rfl]
    split_ifs <;> rfl
  | alloc n =>
    simp only [serve, Store.alloc, show (s.withSpin b).vacant = s.vacant from rfl]
    cases s.vacant <;> rfl
  | free id =>
    simp only [serve, Store.free, Store.ref?, Store.withSpin]
    split_ifs
    · rfl
    · cases (s.slots[id]?).join <;> rfl
  | _ => rfl

/-- A program answers the same on a store whose threads spin, and does the same to it. -/
theorem Program.run_withSpin (p : Program K V α) (s : Store K V) (b : Bool) (hs : List Hold) :
    p.run (s.withSpin b) hs = ((p.run s hs).1, (p.run s hs).2.withSpin b) := by
  induction p generalizing s hs with
  | done a => rfl
  | halt h => exact Prod.ext rfl (s.unwind_withSpin b hs)
  | ask q next ih =>
    have hen : q.enabled (s.withSpin b) = q.enabled s := by cases q <;> rfl
    rw [run, run, hen, q.serve_withSpin]
    split_ifs
    · rcases q.serve s with ⟨f | a, s'⟩
      · exact Prod.ext rfl (s'.unwind_withSpin b hs)
      · exact ih a s' _
    · rfl

theorem Lookup.run_withSpin (cmp : K → K → Ordering) (k : K) (n : Nat) (l : Lookup K V)
    (s : Store K V) (b : Bool) (hs : List Hold) :
    run cmp k (s.withSpin b) hs n l =
      ((run cmp k s hs n l).1, (run cmp k s hs n l).2.withSpin b) := by
  induction n generalizing l s hs with
  | zero => exact Prod.ext rfl (s.unwind_withSpin b hs)
  | succ n ih =>
    rw [run, run]
    cases l.turn cmp k with
    | done v => rfl
    | fault f => exact Prod.ext rfl (s.unwind_withSpin b hs)
    | ask q next =>
      have hen : q.enabled (s.withSpin b) = q.enabled s := by cases q <;> rfl
      simp only [hen, q.serve_withSpin]
      split_ifs
      · rcases q.serve s with ⟨f | a, s'⟩
        · exact Prod.ext rfl (s'.unwind_withSpin b hs)
        · exact ih (next a) s' _
      · rfl

theorem Program.spin_run (p : Program K V α) (s : Store K V) (hs : List Hold) :
    (p.run s hs).2.spin = s.spin :=
  congrArg (fun r => r.2.spin) (p.run_withSpin s s.spin hs)

theorem Lookup.spin_run (cmp : K → K → Ordering) (k : K) (n : Nat) (l : Lookup K V) (s : Store K V)
    (hs : List Hold) : (run cmp k s hs n l).2.spin = s.spin :=
  congrArg (fun r => r.2.spin) (run_withSpin cmp k n l s s.spin hs)

end LatchTree
