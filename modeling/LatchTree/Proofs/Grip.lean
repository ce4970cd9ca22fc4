import LatchTree.Proofs.Content
import LatchTree.Proofs.Latch.Census

/-!
What a writer has of the latches, and how the words of the store show it. A writer that keeps the
rules below is never refused, but for a node that others still read when it wants to go in.
-/

namespace LatchTree

variable {K V : Type}

/-- What a thread has of one latch. -/
structure Grip where
  readers : Nat
  reserved : Bool
  latched : Bool
  locked : Bool

namespace Grip

def free : Grip := ⟨0, false, false, false⟩

def reserving : Grip := ⟨0, true, false, false⟩

/-- The door is closed, from outside. -/
def closing : Grip := ⟨0, false, true, false⟩

/-- The door is closed, from inside. -/
def upgrading : Grip := ⟨0, true, true, false⟩

def inside : Grip := ⟨0, false, true, true⟩

end Grip

/-- What a thread has of every latch. -/
abbrev Grips := Ref → Grip

namespace Grips

def free : Grips := fun _ => .free

/-- Only the latch of `r` is held. -/
def only (r : Ref) (a : Grip) : Grips := Function.update free r a

/-- All doors that are closed are of lower rank than `r`. -/
def Below (g : Grips) (r : Ref) : Prop :=
  ∀ i, (g i).latched = true ∨ (g i).locked = true → i < r

/-- No door is closed and no node is read. -/
def Calm (g : Grips) : Prop :=
  ∀ r, (g r).readers = 0 ∧ (g r).latched = false ∧ (g r).locked = false

end Grips

/-! ## The rules -/

namespace Request

/-- The rules for a writer: it takes what is free, in ascending rank, and gives back what it has. -/
def Allowed (x : Content K V) (g : Grips) : Request K V → Prop
  | .read r => r < x.made ∧ (g r).readers = 0 ∧ (g r).latched = false ∧ (g r).locked = false
  | .tryRead _ => False
  | .leave r => r < x.made ∧ 0 < (g r).readers
  | .reserve r => r < x.made ∧ g r = .free
  | .unreserve r => r < x.made ∧ g r = .reserving
  | .latch r => r < x.made ∧ g r = .free ∧ g.Below r
  | .upgrade r => r < x.made ∧ g r = .reserving ∧ g.Below r
  | .lock r => r < x.made ∧ (g r).readers = 0 ∧ (g r).latched = true ∧ (g r).locked = false ∧
      g.Below (r + 1)
  | .unlock r => r < x.made ∧ g r = .inside
  | .commit ls _ => ∀ m ∈ ls, g m.2 = .inside
  | .resolve _ | .alloc _ | .free _ | .relocations | .countUp | .countDown => True

/-- What the thread has after the request is served. -/
def grip (g : Grips) : Request K V → Grips
  | .read r => Function.update g r { g r with readers := (g r).readers + 1 }
  | .leave r => Function.update g r { g r with readers := (g r).readers - 1 }
  | .reserve r => Function.update g r .reserving
  | .unreserve r => Function.update g r .free
  | .latch r => Function.update g r .closing
  | .upgrade r => Function.update g r .upgrading
  | .lock r => Function.update g r .inside
  | .unlock r => Function.update g r .free
  | .resolve _ | .tryRead _ | .commit _ _ | .alloc _ | .free _ | .relocations | .countUp
  | .countDown => g

end Request

/-! ## Words -/

open Latch

namespace Store

theorem word_mapWord (s : Store K V) (r i : Ref) (f : Word → Word) :
    (s.mapWord r f).word i = if i = r ∧ r < s.cells.size then f (s.word i) else s.word i := by
  simp only [word, mapWord, Array.getElem?_modify]
  by_cases hi : r = i
  · subst hi
    cases h : s.cells[r]? with
    | none => simp [Array.getElem?_eq_none_iff.1 h]
    | some c => simp [(Array.getElem?_eq_some_iff.1 h).1]
  · simp [hi, Ne.symm hi]

variable {s : Store K V} {id : NodeId}

/-- A look into the slots leaves them as they are, with their latch. -/
theorem get_of_ref {r : Ref} (h : s.ref? id = some r) : s.get id = (.ok r, s) := by
  have h' : ({ s with table := s.table.enter } : Store K V).ref? id = some r := h
  simp only [get, h', Word.leave_enter]

theorem get_of_none (h : s.ref? id = none) : s.get id = (.error (.dangling id), s) := by
  have h' : ({ s with table := s.table.enter } : Store K V).ref? id = none := h
  simp only [get, h', Word.leave_enter]

theorem enabled_resolve (h : s.table = .free) : (Request.resolve id).enabled s = true := by
  rw [Request.enabled, h]
  rfl

/-- The words show what a writer has, next to `n r` readers of other threads in each node `r`. -/
structure Shows (s : Store K V) (n : Ref → Nat) (g : Grips) : Prop where
  table : s.table = .free
  word : ∀ r, s.word r =
    Word.compose (n r + (g r).readers) (g r).reserved (g r).latched (g r).locked
  room : ∀ r, n r + 2 < Word.room
  few : ∀ r, (g r).readers ≤ 1
  alone : ∀ r, (g r).locked = true → n r = 0

namespace Shows

variable {s : Store K V} {n : Ref → Nat} {g : Grips}

theorem fits (hs : s.Shows n g) (r : Ref) : n r + (g r).readers + 1 < Word.room := by
  have h₁ := hs.room r
  have h₂ := hs.few r
  omega

theorem enabled (hs : s.Shows n g) {q : Request K V} (hq : q.Allowed s.content g)
    (hn : ∀ r, q = .lock r → n r = 0) : q.enabled s = true := by
  have hfits : ∀ r, n r + (g r).readers < Word.room := fun r =>
    Nat.lt_of_succ_lt (hs.fits r)
  cases q with
  | resolve id => rw [Request.enabled, hs.table]; decide
  | read r =>
    rw [Request.enabled, hs.word, Word.admitsReader_compose (hfits r), hq.2.2.1, hq.2.2.2]
    rfl
  | reserve r =>
    rw [Request.enabled, hs.word, Word.admitsReserver_compose (hfits r), hq.2]
    rfl
  | latch r =>
    rw [Request.enabled, hs.word, Word.admitsWriter_compose (hfits r), hq.2.1]
    rfl
  | lock r =>
    rw [Request.enabled, hs.word, Word.isDrained_compose (hfits r), hn r rfl, hq.2.1]
    rfl
  | alloc _ | free _ => rw [Request.enabled, hs.table]; decide
  | tryRead r => rfl
  | leave r | unreserve r | upgrade r | unlock r | commit ls w | relocations | countUp
  | countDown => rfl

/-- A change of one word that shows a change of one grip. -/
theorem mapWord (hs : s.Shows n g) {r : Ref} {a : Grip} {f : Word → Word} (hr : r < s.cells.size)
    (hf : f (Word.compose (n r + (g r).readers) (g r).reserved (g r).latched (g r).locked) =
      Word.compose (n r + a.readers) a.reserved a.latched a.locked)
    (hfew : a.readers ≤ 1) (halone : a.locked = true → n r = 0) :
    (s.mapWord r f).Shows n (Function.update g r a) := by
  refine ⟨hs.table, fun i => ?_, hs.room, fun i => ?_, fun i => ?_⟩
  · rw [word_mapWord]
    by_cases hi : i = r
    · subst hi
      rw [if_pos ⟨rfl, hr⟩, hs.word, hf, Function.update_self]
    · rw [if_neg fun h => hi h.1, Function.update_of_ne hi, hs.word]
  · by_cases hi : i = r
    · subst hi
      rwa [Function.update_self]
    · rw [Function.update_of_ne hi]
      exact hs.few i
  · by_cases hi : i = r
    · subst hi
      rwa [Function.update_self]
    · rw [Function.update_of_ne hi]
      exact hs.alone i

/-- What others read is not locked. -/
theorem unlocked (hs : s.Shows n g) {r : Ref} (hr : n r ≠ 0) : (g r).locked = false := by
  by_contra hlocked
  exact hr (hs.alone r (by simpa using hlocked))

theorem congr {s' : Store K V} (hs : s.Shows n g) (htable : s'.table = .free)
    (hword : ∀ r, s'.word r = s.word r) : s'.Shows n g :=
  ⟨htable, fun r => (hword r).trans (hs.word r), hs.room, hs.few, hs.alone⟩

end Shows

theorem word_mapNode (s : Store K V) (r i : Ref) (f : Node K V → Node K V) :
    (s.mapNode r f).word i = s.word i := by
  simp only [word, mapNode, Array.getElem?_modify]
  cases h : s.cells[i]? with
  | none => split_ifs <;> rfl
  | some c => split_ifs <;> rfl

theorem word_commit (s : Store K V) (ls : LockSet) (w : Section K V) :
    (s.commit ls w).2.table = s.table ∧ ∀ i, (s.commit ls w).2.word i = s.word i := by
  have hput : ∀ (l : List ((NodeId × Ref) × (NodeId × Node K V))) (s : Store K V),
      (l.foldl (fun s m => s.mapNode m.1.2 fun _ => m.2.2) s).table = s.table ∧
        ∀ i, (l.foldl (fun s m => s.mapNode m.1.2 fun _ => m.2.2) s).word i = s.word i := by
    intro l
    induction l with
    | nil => exact fun s => ⟨rfl, fun _ => rfl⟩
    | cons m l ih =>
      exact fun s => ⟨(ih _).1, fun i => ((ih _).2 i).trans (word_mapNode ..)⟩
  rcases hrun : w.edit.run.run (s.members ls) with ⟨result, ms⟩
  have hs := hput (ls.zip ms) s
  simp only [commit, hrun]
  cases result with
  | error f => exact hs
  | ok v =>
    cases w.relocates with
    | false => exact hs
    | true => exact hs

theorem word_alloc (s : Store K V) (n : Node K V) :
    (s.alloc n).2.table = .free ∧ ∀ i, (s.alloc n).2.word i = s.word i := by
  have hword : ∀ (s' : Store K V) (i : Ref), s'.cells = s.cells.push { node := n } →
      s'.word i = s.word i := by
    intro s' i hs'
    rw [word, word, hs', Array.getElem?_push]
    split_ifs with hi
    · rw [hi, Array.getElem?_eq_none le_rfl]
    · rfl
  simp only [alloc]
  cases s.vacant with
  | nil => exact ⟨rfl, fun i => hword _ i rfl⟩
  | cons id rest => exact ⟨rfl, fun i => hword _ i rfl⟩

theorem word_free (s : Store K V) (id : NodeId) (h : s.table = .free) :
    (s.free id).2.table = .free ∧ ∀ i, (s.free id).2.word i = s.word i := by
  unfold Store.free
  split_ifs
  · exact ⟨h, fun _ => rfl⟩
  · simp only
    split <;> exact ⟨rfl, fun _ => rfl⟩

/-- A request that keeps the rules is shown by the words. -/
theorem Shows.serve {s : Store K V} {n : Ref → Nat} {g : Grips} (hs : s.Shows n g)
    {q : Request K V} (hq : q.Allowed s.content g) (hen : q.enabled s = true) :
    (q.serve s).2.Shows n (q.grip g) := by
  have hfits := hs.fits
  have hfits' : ∀ r, n r + (g r).readers < Word.room := fun r => Nat.lt_of_succ_lt (hfits r)
  cases q with
  | resolve id =>
    exact hs.congr ((Word.leave_enter _).trans hs.table) fun _ => rfl
  | read r =>
    refine hs.mapWord hq.1 (Word.enter_compose (hfits r)) ?_ fun h => ?_
    · simp [hq.2.1]
    · exact absurd h (by simp [hq.2.2.2])
  | tryRead r => exact hq.elim
  | leave r =>
    obtain ⟨m, hm⟩ := Nat.exists_eq_succ_of_ne_zero hq.2.ne'
    refine hs.mapWord hq.1 ?_ ?_ fun h => hs.alone r h
    · have hfit := hfits' r
      rw [hm] at hfit ⊢
      exact Word.leave_compose hfit
    · have hfew := hs.few r
      simp only
      omega
  | reserve r =>
    refine hs.mapWord hq.1 ?_ (Nat.zero_le _) fun h => absurd h (by simp [Grip.reserving])
    rw [Word.reserve_compose (hfits' r), hq.2]
    rfl
  | unreserve r =>
    refine hs.mapWord hq.1 ?_ (Nat.zero_le _) fun h => absurd h (by simp [Grip.free])
    rw [Word.unreserve_compose (hfits' r), hq.2]
    rfl
  | latch r =>
    refine hs.mapWord hq.1 ?_ (Nat.zero_le _) fun h => absurd h (by simp [Grip.closing])
    rw [Word.latch_compose (hfits' r), hq.2.1]
    rfl
  | upgrade r =>
    refine hs.mapWord hq.1 ?_ (Nat.zero_le _) fun h => absurd h (by simp [Grip.upgrading])
    rw [Word.latch_compose (hfits' r), hq.2.1]
    rfl
  | lock r =>
    have hzero : n r = 0 := by
      rw [Request.enabled, hs.word, Word.isDrained_compose (hfits' r), decide_eq_true_eq] at hen
      omega
    refine hs.mapWord hq.1 ?_ (Nat.zero_le _) fun _ => hzero
    rw [Word.lock_compose (hfits' r), hq.2.1, hq.2.2.1]
    rfl
  | unlock r =>
    have hzero : n r = 0 := hs.alone r (by simp [hq.2, Grip.inside])
    change (s.mapWord r fun _ => Word.free).Shows n (Function.update g r .free)
    refine hs.mapWord hq.1 ?_ (Nat.zero_le _) fun _ => hzero
    rw [hzero]
    exact Word.free_eq_compose
  | commit ls w =>
    have hw := word_commit s ls w
    exact hs.congr (hw.1.trans hs.table) hw.2
  | alloc n => exact hs.congr (word_alloc s n).1 (word_alloc s n).2
  | free id => exact hs.congr (word_free s id hs.table).1 (word_free s id hs.table).2
  | relocations | countUp | countDown => exact hs.congr hs.table fun _ => rfl

end Store

end LatchTree
