import LatchTree.Proofs.Latch.Census
import LatchTree.Latch.Room

/-!
What threads have of one latch, and how the word shows it. Next to any number of readers there is at
most one thread that has anything else; each access that changes the word changes what one thread has.
-/

namespace LatchTree.Latch

/-- What a thread has of a latch. -/
inductive Stake where
  | guard (p : Permission)
  /-- It has closed the door, from outside. -/
  | closing
  /-- It holds the reservation and has closed the door. -/
  | upgrading
  deriving DecidableEq, Repr

namespace Stake

abbrev reader : Stake := guard .reading

def reserves : Stake → Bool
  | guard .reserving | upgrading => true
  | _ => false

def latches : Stake → Bool
  | guard .writing | closing | upgrading => true
  | _ => false

def locks : Stake → Bool
  | guard .writing => true
  | _ => false

theorem reserves_iff {a : Stake} : a.reserves = true ↔ a = guard .reserving ∨ a = upgrading := by
  cases a with
  | guard p => cases p <;> simp [reserves]
  | closing | upgrading => simp [reserves]

theorem latches_iff {a : Stake} :
    a.latches = true ↔ a = closing ∨ a = upgrading ∨ a = guard .writing := by
  cases a with
  | guard p => cases p <;> simp [latches]
  | closing | upgrading => simp [latches]

theorem locks_iff {a : Stake} : a.locks = true ↔ a = guard .writing := by
  cases a with
  | guard p => cases p <;> simp [locks]
  | closing | upgrading => simp [locks]

/-- Only readers neither reserve nor close the door. -/
theorem eq_reader {a : Stake} (hr : a.reserves = false) (hl : a.latches = false) : a = reader := by
  cases a with
  | guard p =>
    cases p with
    | reading => rfl
    | reserving => exact absurd hr (by decide)
    | writing => exact absurd hl (by decide)
  | closing | upgrading => exact absurd hl (by decide)

end Stake

open Stake

namespace Word

/-- The word tells that threads have the stakes `l`, and these agree with each other. -/
structure Shows (w : Word) (l : List Stake) : Prop where
  word : w = compose (l.count reader) (l.any reserves) (l.any latches) (l.any locks)
  room : l.count reader < room
  single : (l.countP fun a => a ≠ reader) ≤ 1
  alone : .guard .writing ∈ l → l.count reader = 0

variable {w : Word} {a : Stake} {l l' : List Stake}

theorem Shows.perm (h : w.Shows l) (hl : l.Perm l') : w.Shows l' where
  word := by rw [← hl.count_eq, ← hl.any_eq, ← hl.any_eq, ← hl.any_eq, h.word]
  room := hl.count_eq reader ▸ h.room
  single := hl.countP_eq _ ▸ h.single
  alone hm := hl.count_eq reader ▸ h.alone (hl.mem_iff.2 hm)

/-! ## Readers, and one more -/

/-- Without a reservation and with the door open there are only readers. -/
theorem readers_of_any (hr : l.any reserves = false) (hl : l.any latches = false) :
    ∀ b ∈ l, b = reader := by
  rw [List.any_eq_false] at hr hl
  exact fun b hb => eq_reader (by simpa using hr b hb) (by simpa using hl b hb)

theorem count_readers (hl : ∀ b ∈ l, b = reader) : l.count reader = l.length :=
  List.count_eq_length.2 fun b hb => (hl b hb).symm

theorem shows_readers (hl : ∀ b ∈ l, b = reader) :
    w.Shows l ↔ w = compose l.length false false false ∧ l.length < room := by
  have hany : ∀ q : Stake → Bool, q reader = false → l.any q = false := by
    intro q hq
    rw [List.any_eq_false]
    intro b hb
    simp [hl b hb, hq]
  have hword : ∀ w : Word, w = compose (l.count reader) (l.any reserves) (l.any latches) (l.any locks) ↔
      w = compose l.length false false false := by
    intro w
    rw [count_readers hl, hany _ rfl, hany _ rfl, hany _ rfl]
  constructor
  · exact fun h => ⟨(hword w).1 h.word, count_readers hl ▸ h.room⟩
  · rintro ⟨h, hroom⟩
    refine ⟨(hword w).2 h, (count_readers hl).symm ▸ hroom, ?_, fun hm => ?_⟩
    · rw [List.countP_eq_zero.2 fun b hb => by simp [hl b hb]]
      exact Nat.zero_le 1
    · exact absurd (hl _ hm) (by decide)

theorem shows_claim (ha : a ≠ reader) : w.Shows (a :: l) ↔ (∀ b ∈ l, b = reader) ∧
    w = compose l.length a.reserves a.latches a.locks ∧ l.length < room ∧
      (a = .guard .writing → l = []) := by
  have hcount : (a :: l).count reader = l.count reader := List.count_cons_of_ne ha
  have hany : ∀ q : Stake → Bool, q reader = false → (∀ b ∈ l, b = reader) → (a :: l).any q = q a := by
    intro q hq hl
    rw [List.any_cons, Bool.or_eq_left_iff_imp, List.any_eq_true]
    rintro ⟨b, hb, hqb⟩
    rw [hl b hb, hq] at hqb
    cases hqb
  constructor
  · rintro ⟨hword, hroom, hsingle, halone⟩
    have hl : ∀ b ∈ l, b = reader := by
      rw [List.countP_cons_of_pos (by simpa using ha)] at hsingle
      have hzero : (l.countP fun a => a ≠ reader) = 0 := by omega
      simpa using List.countP_eq_zero.1 hzero
    rw [hany _ rfl hl, hany _ rfl hl, hany _ rfl hl, hcount, count_readers hl] at hword
    rw [hcount, count_readers hl] at hroom halone
    refine ⟨hl, hword, hroom, ?_⟩
    rintro rfl
    exact List.length_eq_zero_iff.1 (halone List.mem_cons_self)
  · rintro ⟨hl, hword, hroom, halone⟩
    refine ⟨?_, ?_, ?_, fun hm => ?_⟩
    · rw [hany _ rfl hl, hany _ rfl hl, hany _ rfl hl, hcount, count_readers hl, hword]
    · rwa [hcount, count_readers hl]
    · rw [List.countP_cons, List.countP_eq_zero.2 fun b hb => by simp [hl b hb]]
      split_ifs <;> simp
    · rcases List.mem_cons.1 hm with rfl | hm
      · simp [halone rfl]
      · exact absurd (hl _ hm) (by decide)

/-! ## What an access changes -/

namespace Shows

theorem free : Word.free.Shows [] :=
  (shows_readers (by simp)).2 ⟨free_eq_compose, room_pos⟩

theorem admitsReader (h : w.Shows l) : w.admitsReader = (!l.any latches && !l.any locks) := by
  rw [h.word, admitsReader_compose h.room]

theorem isDrained (h : w.Shows l) : w.isDrained = decide (l.count reader = 0) := by
  rw [h.word, isDrained_compose h.room]

theorem enter (h : w.Shows l) (hadm : w.admitsReader = true)
    (hroom : (reader :: l).count reader < Word.room) : w.enter.Shows (reader :: l) := by
  have hw := h.word
  have hcount : (reader :: l).count reader = l.count reader + 1 := List.count_cons_self
  refine ⟨?_, hroom, ?_, fun hm => ?_⟩
  · rw [hw, enter_compose (hcount ▸ hroom), hcount]
    simp [reserves, latches, locks]
  · simpa using h.single
  · rw [h.admitsReader, Bool.and_eq_true, Bool.not_eq_true', Bool.not_eq_true'] at hadm
    have hlocked : l.any locks = true := List.any_eq_true.2 ⟨.guard .writing, by simpa using hm, rfl⟩
    exact absurd hlocked (by simp [hadm.2])

theorem leave (h : w.Shows (reader :: l)) : w.leave.Shows l := by
  have hcount : (reader :: l).count reader = l.count reader + 1 := List.count_cons_self
  have hroom := h.room
  have hsingle := h.single
  rw [hcount] at hroom
  refine ⟨?_, Nat.lt_of_succ_lt hroom, ?_, fun hm => ?_⟩
  · rw [h.word, hcount, leave_compose hroom]
    simp [reserves, latches, locks]
  · simpa using hsingle
  · exact absurd (h.alone (List.mem_cons_of_mem _ hm)) (by rw [hcount]; exact Nat.succ_ne_zero _)

theorem of_admitsReserver (h : w.Shows l) (hadm : w.admitsReserver = true) :
    (∀ b ∈ l, b = reader) ∧ w = compose l.length false false false ∧ l.length < Word.room := by
  have hadm' := hadm
  rw [h.word, admitsReserver_compose h.room] at hadm'
  simp only [Bool.and_eq_true, Bool.not_eq_true'] at hadm'
  have hl := readers_of_any hadm'.1.1 hadm'.1.2
  exact ⟨hl, (shows_readers hl).1 h⟩

theorem of_admitsWriter (h : w.Shows l) (hadm : w.admitsWriter = true) :
    (∀ b ∈ l, b = reader) ∧ w = compose l.length false false false ∧ l.length < Word.room := by
  have hadm' := hadm
  rw [h.word, admitsWriter_compose h.room] at hadm'
  simp only [Bool.and_eq_true, Bool.not_eq_true'] at hadm'
  have hl := readers_of_any hadm'.1 hadm'.2
  exact ⟨hl, (shows_readers hl).1 h⟩

theorem reserve (h : w.Shows l) (hadm : w.admitsReserver = true) :
    w.reserve.Shows (.guard .reserving :: l) := by
  obtain ⟨hl, rfl, hroom⟩ := h.of_admitsReserver hadm
  exact (shows_claim (by decide)).2 ⟨hl, reserve_compose hroom, hroom, by simp⟩

theorem unreserve (h : w.Shows (.guard .reserving :: l)) : w.unreserve.Shows l := by
  obtain ⟨hl, rfl, hroom, -⟩ := (shows_claim (by decide)).1 h
  exact (shows_readers hl).2 ⟨unreserve_compose hroom, hroom⟩

theorem latch (h : w.Shows l) (hadm : w.admitsWriter = true) : w.latch.Shows (.closing :: l) := by
  obtain ⟨hl, rfl, hroom⟩ := h.of_admitsWriter hadm
  exact (shows_claim (by decide)).2 ⟨hl, latch_compose hroom, hroom, by simp⟩

theorem upgrade (h : w.Shows (.guard .reserving :: l)) : w.latch.Shows (.upgrading :: l) := by
  obtain ⟨hl, rfl, hroom, -⟩ := (shows_claim (by decide)).1 h
  exact (shows_claim (by decide)).2 ⟨hl, latch_compose hroom, hroom, by simp⟩

/-- The thread that has closed the door goes in when no reader is left. -/
theorem lock (ha : a = .closing ∨ a = .upgrading) (h : w.Shows (a :: l)) (hd : w.isDrained = true) :
    w.lock.Shows (.guard .writing :: l) := by
  have hne : a ≠ reader := by
    rintro rfl
    exact absurd ha (by decide)
  have hlatched : a.latches = true := by
    rcases ha with rfl | rfl <;> rfl
  rw [h.isDrained, decide_eq_true_iff, List.count_cons_of_ne hne] at hd
  obtain ⟨hl, rfl, hroom, -⟩ := (shows_claim hne).1 h
  rw [count_readers hl] at hd
  refine (shows_claim (by decide)).2 ⟨hl, ?_, hroom, fun _ => List.length_eq_zero_iff.1 hd⟩
  rw [lock_compose hroom, hlatched]
  rfl

/-- A door that is open to a writer is not locked. -/
theorem not_locked (h : w.Shows l) (hadm : w.admitsWriter = true) : w.isLocked = false := by
  obtain ⟨hl, rfl, hroom⟩ := h.of_admitsWriter hadm
  exact isLocked_compose hroom

/-- With a reservation the door is open. -/
theorem reserved_admits (h : w.Shows (.guard .reserving :: l)) : w.admitsReader = true := by
  obtain ⟨hl, rfl, hroom, -⟩ := (shows_claim (by decide)).1 h
  rw [admitsReader_compose hroom]
  rfl

theorem writing_drained (h : w.Shows (.guard .writing :: l)) : w.isDrained = true := by
  rw [h.isDrained, h.alone List.mem_cons_self]
  rfl

/-- Next to a thread that has anything else there are only readers. -/
theorem perm_claim (h : w.Shows l) (ha : a ∈ l) (hne : a ≠ reader) :
    ∃ n, l.Perm (a :: List.replicate n reader) ∧ (a = .guard .writing → n = 0) := by
  have hperm := List.perm_cons_erase ha
  obtain ⟨hl, -, -, halone⟩ := (shows_claim hne).1 (h.perm hperm)
  refine ⟨(l.erase a).length, ?_, fun hw => by rw [halone hw, List.length_nil]⟩
  rwa [← List.eq_replicate_length.2 hl]

/-- Once a thread has closed the door and the readers have left, no other has anything, and none is
let in. -/
theorem shut {o : Option Stake} (h : w.Shows (o.toList ++ l)) (ha : a ∈ l) (hlatches : a.latches = true)
    (hd : w.isDrained = true) : o = none ∧ w.admitsReader = false ∧ w.admitsReserver = false ∧
      w.admitsWriter = false := by
  have hne : a ≠ reader := by
    rintro rfl
    cases hlatches
  have hclosed : (o.toList ++ l).any latches = true :=
    List.any_eq_true.2 ⟨a, List.mem_append_right _ ha, hlatches⟩
  refine ⟨?_, ?_, ?_, ?_⟩
  · obtain ⟨n, hperm, -⟩ := h.perm_claim (List.mem_append_right _ ha) hne
    rw [h.isDrained, decide_eq_true_iff, hperm.count_eq, List.count_cons_of_ne hne,
      List.count_replicate_self] at hd
    have hlength := hperm.length_eq
    rw [hd, List.length_append] at hlength
    have hpos := List.length_pos_of_mem ha
    cases o with
    | none => rfl
    | some b =>
      simp only [Option.toList_some, List.length_singleton, List.replicate_zero] at hlength
      omega
  · rw [h.admitsReader, hclosed]
    rfl
  · rw [h.word, admitsReserver_compose h.room, hclosed]
    simp
  · rw [h.word, admitsWriter_compose h.room, hclosed]
    simp

/-- A writer is alone inside. -/
theorem of_writing (h : w.Shows (.guard .writing :: l)) : l = [] :=
  ((shows_claim (by decide)).1 h).2.2.2 rfl

end Shows

end Word

end LatchTree.Latch
