import LatchTree.Proofs.Latch.Traffic

/-!
What the word of a latch says of the threads that use it, and that none of them ever meets a fault.
-/

namespace LatchTree.Latch

open Stake

/-! ## What the word says -/

namespace Word.Shows

variable {w : Word} {l : List Stake}

theorem readers (h : w.Shows l) : w.readers.toNat = l.count reader := by
  rw [h.word, readers_compose h.room]

theorem isReserved (h : w.Shows l) :
    w.isReserved = true ↔ .guard .reserving ∈ l ∨ .upgrading ∈ l := by
  rw [h.word, isReserved_compose h.room, List.any_eq_true]
  simp only [reserves_iff, and_or_left, exists_or, exists_eq_right]

theorem isLatched (h : w.Shows l) :
    w.isLatched = true ↔ .closing ∈ l ∨ .upgrading ∈ l ∨ .guard .writing ∈ l := by
  rw [h.word, isLatched_compose h.room, List.any_eq_true]
  simp only [latches_iff, and_or_left, exists_or, exists_eq_right]

theorem isLocked (h : w.Shows l) : w.isLocked = true ↔ .guard .writing ∈ l := by
  rw [h.word, isLocked_compose h.room, List.any_eq_true]
  simp only [locks_iff, exists_eq_right]

theorem isLatched_of_isLocked (h : w.Shows l) (hw : w.isLocked = true) : w.isLatched = true :=
  h.isLatched.2 (.inr (.inr (h.isLocked.1 hw)))

theorem eq_zero_iff (h : w.Shows l) : w = 0 ↔ l = [] := by
  constructor
  · intro hw
    have hzero := h.word.symm.trans hw
    rw [compose_eq_zero h.room] at hzero
    obtain ⟨hcount, hr, hl, -⟩ := hzero
    rwa [count_readers (readers_of_any hr hl), List.length_eq_zero_iff] at hcount
  · rintro rfl
    exact ((shows_readers (by simp)).1 h).1.trans free_eq_compose.symm

theorem one_reserver (h : w.Shows l) :
    l.count (.guard .reserving) + l.count .upgrading ≤ 1 := by
  by_cases hr : .guard .reserving ∈ l
  · obtain ⟨n, hperm, -⟩ := h.perm_claim hr (by decide)
    rw [hperm.count_eq, hperm.count_eq]
    simp [List.count_replicate]
  · rw [List.count_eq_zero_of_not_mem hr, Nat.zero_add]
    by_cases hu : .upgrading ∈ l
    · obtain ⟨n, hperm, -⟩ := h.perm_claim hu (by decide)
      rw [hperm.count_eq]
      simp [List.count_replicate]
    · simp [List.count_eq_zero_of_not_mem hu]

theorem writer_alone (h : w.Shows l) (hw : .guard .writing ∈ l) : l = [.guard .writing] := by
  obtain ⟨n, hperm, hn⟩ := h.perm_claim hw (by decide)
  rw [hn rfl] at hperm
  exact List.perm_singleton.1 hperm

end Word.Shows

namespace Traffic

/-- The word tells exactly what the threads have: how many guards for reading there are, whether there
is a reservation that no write guard has come of, whether a writer has closed the door, and whether one
is inside. -/
structure Counted (t : Traffic) : Prop where
  readers : t.door.word.readers.toNat = t.stakes.count (.guard .reading)
  reserved : t.door.word.isReserved = true ↔
    .guard .reserving ∈ t.stakes ∨ .upgrading ∈ t.stakes
  latched : t.door.word.isLatched = true ↔
    .closing ∈ t.stakes ∨ .upgrading ∈ t.stakes ∨ .guard .writing ∈ t.stakes
  locked : t.door.word.isLocked = true ↔ .guard .writing ∈ t.stakes
  closed : t.door.word.isLocked = true → t.door.word.isLatched = true
  one_reserver : t.stakes.count (.guard .reserving) + t.stakes.count .upgrading ≤ 1
  writer_alone : .guard .writing ∈ t.stakes → t.stakes = [.guard .writing]
  free : t.door.word = 0 ↔ t.stakes = []
  at_rest : t.guards = [] → (∀ s ∈ t.threads, s = .idle) → t.door.word = 0

/-- Whatever threads do with a latch, and in whatever order, its word tells what they have of it. -/
theorem Run.word_counts {t : ℕ → Traffic} {n : ℕ} (h : Run t n) : (t n).Counted := by
  have hs := (h.sound le_rfl).shows
  exact ⟨hs.readers, hs.isReserved, hs.isLatched, hs.isLocked, hs.isLatched_of_isLocked, hs.one_reserver,
    hs.writer_alone, hs.eq_zero_iff, fun hguards hidle => hs.eq_zero_iff.2 (stakes_idle hguards hidle)⟩

/-- Where the first actions lead, from a free latch. One that is not possible changes nothing. -/
def follow (threads : ℕ) (as : List Action) (i : ℕ) : Traffic :=
  (as.take i).foldl (fun t a => (t.step a).getD t) ⟨{ rank := 0 }, [], .replicate threads .idle⟩

theorem run_follow {threads n : ℕ} {as : List Action}
    (hstep : ∀ i < n, (as[i]?.bind (follow threads as i).step).isSome)
    (hroom : ∀ i ≤ n, (follow threads as i).stakes.count reader < 2 ^ 29) :
    Run (follow threads as) n where
  free := rfl
  unheld := rfl
  idle := fun _ hs => List.eq_of_mem_replicate hs
  step i hi := by
    obtain ⟨t, ht⟩ := Option.isSome_iff_exists.1 (hstep i hi)
    obtain ⟨a, ha, hat⟩ := Option.bind_eq_some_iff.1 ht
    refine ⟨a, ?_⟩
    have hnext : follow threads as (i + 1) =
        ((follow threads as i).step a).getD (follow threads as i) := by
      rw [follow, List.take_add_one, ha, List.foldl_append]
      rfl
    rw [hnext, hat]
    rfl
  room := hroom

/-- A reader is inside while another thread, with the reservation, closes the door. A third one is not
let in. Then the reader leaves, and the second one sees that none is left. -/
def closeDoor : List Action :=
  [.call 0 .read, .access 0, .access 0, .call 1 .reserve, .access 1, .access 1, .call 1 .upgrade,
    .access 1, .call 2 .tryRead, .access 2, .call 0 (.drop .reading), .access 0, .access 1]

theorem Run.word_counts_closing : (follow 3 closeDoor 10).door.word = 0x60000001 ∧
    (follow 3 closeDoor 10).guards = [.reading] ∧ (follow 3 closeDoor 10).Counted := by
  have hrun : Run (follow 3 closeDoor) 10 := run_follow (by decide +kernel) (by decide +kernel)
  exact ⟨by decide +kernel, by decide +kernel, hrun.word_counts⟩

end Traffic

/-! ## No fault -/

namespace Point

/-- What a thread finds in the word: a writer that no other has shut out finds the room unlocked, also
with a reservation; a thread that waits for readers to leave, or lets a lock go, finds the word as it
has loaded it; and no reader is in a locked room. -/
def Undisturbed (w : Word) : Point → Prop
  | writeLoad => w.isLatched = false → w.isLocked = false
  | upgradeLatch => w.isLatched = false ∧ w.isLocked = false
  | lockSwap _ seen | leaveWriteSwap seen => w = seen
  | leaveWriteLoad => w.readers = 0
  | readLoad _ | readSwap _ _ | reserveLoad | reserveSwap _ | writeSwap _ | lockLoad _ | leaveRead
  | leaveReserve => True

variable {p : Point} {d : Door} {w : Word} {rest : List Stake}

theorem undisturbed (hw : w.Shows (p.stake.toList ++ rest)) (he : p.Expects w) : p.Undisturbed w := by
  cases p with
  | writeLoad =>
    intro hlatched
    by_contra hlocked
    rw [Bool.not_eq_false] at hlocked
    exact absurd (hw.isLatched_of_isLocked hlocked) (by simp [hlatched])
  | upgradeLatch =>
    obtain ⟨-, rfl, hroom, -⟩ := (Word.shows_claim (by decide)).1 hw
    exact ⟨Word.isLatched_compose hroom, Word.isLocked_compose hroom⟩
  | lockSwap upgrading seen => exact he.1
  | leaveWriteLoad => simpa [Undisturbed, Word.isDrained] using hw.writing_drained
  | leaveWriteSwap seen => exact he.1
  | _ => trivial

theorem access_ne_fault (hw : d.word.Shows (p.stake.toList ++ rest)) (he : p.Expects d.word)
    (f : Fault) : (p.access d).1 ≠ .fault f := by
  intro hf
  have hroom : rest.count reader < Word.room :=
    lt_of_le_of_lt (List.Sublist.count_le _ (List.sublist_append_right _ _)) hw.room
  exact (access_shows hw he (Prod.ext hf rfl) hroom).2

end Point

namespace Traffic

/-- No thread has met a fault, and none of the accesses that can come next meets one. -/
theorem Run.never_faults {t : ℕ → Traffic} {n : ℕ} (h : Run t n) : ∀ s ∈ (t n).threads,
    (∀ f, s ≠ .failed f) ∧ ∀ p, s = .calling p →
      p.Undisturbed (t n).door.word ∧ ∀ f, (p.access (t n).door).1 ≠ .fault f := by
  have hsound := h.sound le_rfl
  generalize t n = c at hsound ⊢
  obtain ⟨d, guards, threads⟩ := c
  intro s hs
  refine ⟨?_, ?_⟩
  · rintro f rfl
    exact hsound.expects _ hs
  · rintro p rfl
    obtain ⟨pre, post, rfl⟩ := List.append_of_mem hs
    obtain ⟨hexpects, hshows⟩ := hsound.split
    exact ⟨Point.undisturbed hshows hexpects, Point.access_ne_fault hshows hexpects⟩

theorem Run.never_faults_closing :
    (follow 3 closeDoor 13).threads[1]? = some (.calling (.lockSwap true 0x60000000)) ∧
    (follow 3 closeDoor 13).door.word = 0x60000000 ∧
    ∀ f, ((Point.lockSwap true 0x60000000).access (follow 3 closeDoor 13).door).1 ≠ .fault f := by
  have hrun : Run (follow 3 closeDoor) 13 := run_follow (by decide +kernel) (by decide +kernel)
  have hthread : (follow 3 closeDoor 13).threads[1]? = some (.calling (.lockSwap true 0x60000000)) := by
    decide +kernel
  obtain ⟨-, hcalling⟩ := hrun.never_faults _ (List.mem_of_getElem? hthread)
  exact ⟨hthread, hcalling _ rfl⟩

end Traffic

end LatchTree.Latch
