import LatchTree.Proofs.Latch.Stakes

/-!
Any number of threads at one latch. Each makes calls of its own, and access by access they go on in any
order. The word always tells who has what, and no access meets a fault.
-/

namespace LatchTree.Latch

/-- What a thread may do with a latch. -/
inductive Call where
  | read
  | tryRead
  | reserve
  | write
  /-- Turns a reservation into a permission to write. -/
  | upgrade
  | drop (p : Permission)
  deriving DecidableEq, Repr

namespace Call

def point : Call → Point
  | read => .readLoad true
  | tryRead => .readLoad false
  | reserve => .reserveLoad
  | write => .writeLoad
  | upgrade => .upgradeLatch
  | drop p => p.leave

/-- The guard that the call uses up. -/
def spends : Call → Option Permission
  | upgrade => some .reserving
  | drop p => some p
  | read | tryRead | reserve | write => none

/-- What is left of the guards, if the one that the call uses up is there. -/
def take (c : Call) (guards : List Permission) : Option (List Permission) :=
  match c.spends with
  | none => some guards
  | some p => if p ∈ guards then some (guards.erase p) else none

end Call

inductive Stage where
  | idle
  | calling (p : Point)
  | failed (f : Fault)
  deriving DecidableEq, Repr

def Progress.stage : Progress → Stage
  | next p | giveWay p => .calling p
  | finished _ => .idle
  | fault f => .failed f

namespace Point

/-- What a call that stands here is granted when it ends well. -/
def grant : Point → Option Permission
  | readLoad _ | readSwap _ _ => some .reading
  | reserveLoad | reserveSwap _ => some .reserving
  | writeLoad | writeSwap _ | upgradeLatch | lockLoad _ | lockSwap _ _ => some .writing
  | leaveRead | leaveReserve | leaveWriteLoad | leaveWriteSwap _ => none

def gains (p : Point) : Progress → List Permission
  | .finished true => p.grant.toList
  | _ => []

end Point

/-- One latch, and the threads that use it. -/
structure Traffic where
  door : Door
  /-- The guards that live. A thread may use up any of them, also one that another thread got. -/
  guards : List Permission := []
  threads : List Stage
  deriving DecidableEq

namespace Traffic

inductive Action where
  | call (i : ℕ) (c : Call)
  | access (i : ℕ)
  deriving DecidableEq, Repr

/-- A thread starts a call, if it is in no other, or makes the next access of the call that it is in. -/
def step (t : Traffic) : Action → Option Traffic
  | .call i c =>
    match t.threads[i]? with
    | some .idle => (c.take t.guards).map fun guards =>
      { t with guards, threads := t.threads.set i (.calling c.point) }
    | _ => none
  | .access i =>
    match t.threads[i]? with
    | some (.calling p) =>
      let (r, door) := p.access t.door
      some { door, guards := p.gains r ++ t.guards, threads := t.threads.set i r.stage }
    | _ => none

end Traffic

/-! ## What threads have -/

/-- What a thread at this point has, apart from guards that the call is not about. A guard on its way
out counts until the access that lets it go. -/
def Point.stake : Point → Option Stake
  | readLoad _ | readSwap _ _ | reserveLoad | reserveSwap _ | writeLoad | writeSwap _ => none
  | upgradeLatch | leaveReserve => some (.guard .reserving)
  | lockLoad false | lockSwap false _ => some .closing
  | lockLoad true | lockSwap true _ => some .upgrading
  | leaveRead => some (.guard .reading)
  | leaveWriteLoad | leaveWriteSwap _ => some (.guard .writing)

/-- What a thread relies on: the word that it has loaded let it go on, and the word of a closed room
that the readers have left stays as it is. -/
def Point.Expects (w : Word) : Point → Prop
  | readSwap _ seen => seen.admitsReader = true
  | reserveSwap seen => seen.admitsReserver = true
  | writeSwap seen => seen.admitsWriter = true
  | lockSwap _ seen | leaveWriteSwap seen => w = seen ∧ w.isDrained = true
  | readLoad _ | reserveLoad | writeLoad | upgradeLatch | lockLoad _ | leaveRead | leaveReserve
  | leaveWriteLoad => True

namespace Stage

def stake : Stage → Option Stake
  | calling p => p.stake
  | idle | failed _ => none

def Expects (w : Word) : Stage → Prop
  | idle => True
  | calling p => p.Expects w
  | failed _ => False

end Stage

/-- All that the threads have of the latch. -/
def Traffic.stakes (t : Traffic) : List Stake :=
  t.threads.flatMap (·.stake.toList) ++ t.guards.map .guard

/-! ## One access -/

namespace Door

@[simp] theorem word_countConflict (d : Door) : d.countConflict.word = d.word := by
  unfold countConflict
  split_ifs <;> rfl

@[simp] theorem word_countRead (d : Door) : d.countRead.word = d.word := by
  unfold countRead
  split_ifs <;> rfl

@[simp] theorem word_countLock (d : Door) (upgrading : Bool) :
    (d.countLock upgrading).word = d.word := by
  unfold countLock
  split_ifs <;> rfl

end Door

open Stake

namespace Point

variable {d d' : Door} {p : Point} {r : Progress} {rest : List Stake}

/-- The thread has the stakes that its progress says, and the word shows that; a fault is not met. -/
theorem access_shows (hw : d.word.Shows (p.stake.toList ++ rest)) (he : p.Expects d.word)
    (h : p.access d = (r, d'))
    (hroom : ((p.gains r).map Stake.guard ++ rest).count reader < Word.room) :
    d'.word.Shows (r.stage.stake.toList ++ ((p.gains r).map .guard ++ rest)) ∧
      r.stage.Expects d'.word := by
  cases p with
  | readLoad waits =>
    simp only [access] at h
    split_ifs at h with hadm hwaits
    · cases h
      exact ⟨hw, hadm⟩
    · cases h
      rw [Door.word_countConflict, Door.word_countConflict]
      exact ⟨hw, trivial⟩
    · cases h
      rw [Door.word_countConflict]
      exact ⟨hw, trivial⟩
  | readSwap waits seen =>
    simp only [access] at h
    split_ifs at h with hseen
    · cases h
      subst hseen
      rw [Door.word_countRead]
      exact ⟨hw.enter he hroom, trivial⟩
    · cases h
      exact ⟨hw, trivial⟩
  | reserveLoad =>
    simp only [access] at h
    split_ifs at h with hadm
    · cases h
      exact ⟨hw, hadm⟩
    · cases h
      rw [Door.word_countConflict]
      exact ⟨hw, trivial⟩
  | reserveSwap seen =>
    simp only [access] at h
    split_ifs at h with hseen
    · cases h
      subst hseen
      exact ⟨hw.reserve he, trivial⟩
    · cases h
      rw [Door.word_countConflict]
      exact ⟨hw, trivial⟩
  | writeLoad =>
    simp only [access] at h
    split_ifs at h with hadm hlocked
    · exact absurd hlocked (by simp [hw.not_locked hadm])
    · cases h
      exact ⟨hw, hadm⟩
    · cases h
      rw [Door.word_countConflict]
      exact ⟨hw, trivial⟩
  | writeSwap seen =>
    simp only [access] at h
    split_ifs at h with hseen
    · cases h
      subst hseen
      exact ⟨hw.latch he, trivial⟩
    · cases h
      rw [Door.word_countConflict]
      exact ⟨hw, trivial⟩
  | upgradeLatch =>
    simp only [access] at h
    rw [if_pos hw.reserved_admits] at h
    cases h
    exact ⟨hw.upgrade, trivial⟩
  | lockLoad upgrading =>
    simp only [access] at h
    split_ifs at h with hdrained
    · cases h
      exact ⟨by cases upgrading <;> exact hw, rfl, hdrained⟩
    · cases h
      rw [Door.word_countConflict]
      exact ⟨hw, trivial⟩
  | lockSwap upgrading seen =>
    obtain ⟨rfl, hdrained⟩ := he
    simp only [access, if_true] at h
    cases h
    refine ⟨?_, trivial⟩
    rw [Door.word_countLock]
    cases upgrading with
    | false => exact hw.lock (.inl rfl) hdrained
    | true => exact hw.lock (.inr rfl) hdrained
  | leaveRead =>
    cases h
    exact ⟨hw.leave, trivial⟩
  | leaveReserve =>
    cases h
    exact ⟨hw.unreserve, trivial⟩
  | leaveWriteLoad =>
    simp only [access] at h
    rw [if_pos hw.writing_drained] at h
    cases h
    exact ⟨hw, rfl, hw.writing_drained⟩
  | leaveWriteSwap seen =>
    obtain ⟨rfl, -⟩ := he
    simp only [access, if_true] at h
    cases h
    obtain rfl := hw.of_writing
    exact ⟨.free, trivial⟩

/-- While a thread has closed the door and the readers have left, no other changes the word. -/
theorem access_still {a : Stake} (hw : d.word.Shows (p.stake.toList ++ rest)) (he : p.Expects d.word)
    (ha : a ∈ rest) (hlatches : a.latches = true) (hdrained : d.word.isDrained = true) :
    (p.access d).2.word = d.word := by
  obtain ⟨hp, hreader, hreserver, hwriter⟩ := hw.shut ha hlatches hdrained
  cases p with
  | readLoad waits =>
    simp only [access, hreader, Bool.false_eq_true, if_false]
    cases waits <;> simp
  | readSwap waits seen =>
    rw [access, if_neg]
    rintro rfl
    exact Bool.false_ne_true (hreader.symm.trans he)
  | reserveLoad =>
    simp only [access, hreserver, Bool.false_eq_true, if_false, Door.word_countConflict]
  | reserveSwap seen =>
    rw [access, if_neg]
    · exact Door.word_countConflict d
    · rintro rfl
      exact Bool.false_ne_true (hreserver.symm.trans he)
  | writeLoad =>
    simp only [access, hwriter, Bool.false_eq_true, if_false, Door.word_countConflict]
  | writeSwap seen =>
    rw [access, if_neg]
    · exact Door.word_countConflict d
    · rintro rfl
      exact Bool.false_ne_true (hwriter.symm.trans he)
  | lockLoad upgrading | lockSwap upgrading seen => cases upgrading <;> cases hp
  | upgradeLatch | leaveRead | leaveReserve | leaveWriteLoad | leaveWriteSwap => cases hp

end Point

/-! ## What holds throughout -/

namespace Call

variable {c : Call} {guards guards' : List Permission}

theorem take_eq_some (h : c.take guards = some guards') :
    (c.point.stake.toList ++ guards'.map guard).Perm (guards.map guard) := by
  have hpoint : c.point.stake = c.spends.map .guard := by
    cases c with
    | drop p => cases p <;> rfl
    | _ => rfl
  rw [hpoint]
  unfold take at h
  split at h
  · rename_i hspends
    cases h
    rw [hspends]
    exact .refl _
  · rename_i p hspends
    split_ifs at h with hp
    cases h
    rw [hspends]
    exact ((List.perm_cons_erase hp).map _).symm

theorem expects_point (c : Call) (w : Word) : c.point.Expects w := by
  cases c with
  | drop p => cases p <;> trivial
  | _ => trivial

end Call

namespace Traffic

variable {t t' : Traffic} {d d' : Door} {guards guards' : List Permission} {pre post : List Stage}
  {s s' : Stage} {p : Point} {n : ℕ}

/-- The word shows what the threads have, and they have what they rely on. -/
structure Sound (t : Traffic) : Prop where
  shows : t.door.word.Shows t.stakes
  expects : ∀ s ∈ t.threads, s.Expects t.door.word

/-- The guards, and what the threads before and after one of them have. -/
def among (guards : List Permission) (pre post : List Stage) : List Stake :=
  guards.map .guard ++ (pre ++ post).flatMap (·.stake.toList)

/-- One thread apart from the others. -/
theorem stakes_split : (stakes ⟨d, guards, pre ++ s :: post⟩).Perm
    (s.stake.toList ++ among guards pre post) := by
  have hthreads : ((pre ++ s :: post).flatMap (·.stake.toList)).Perm
      (s.stake.toList ++ (pre ++ post).flatMap (·.stake.toList)) :=
    List.Perm.flatMap_right _ List.perm_middle
  rw [stakes, among]
  refine (hthreads.append_right _).trans ?_
  rw [List.append_assoc]
  exact List.perm_append_comm.append_left _

/-- The thread that makes an access, and the others, as the word shows them. -/
theorem Sound.split (h : Sound ⟨d, guards, pre ++ .calling p :: post⟩) : p.Expects d.word ∧
    d.word.Shows (p.stake.toList ++ among guards pre post) :=
  ⟨h.expects (.calling p) (by simp), h.shows.perm stakes_split⟩

/-- What the others rely on stays when a thread makes an access. -/
theorem Sound.others (h : Sound ⟨d, guards, pre ++ .calling p :: post⟩) (hs : s ∈ pre ++ post) :
    s.Expects (p.access d).2.word := by
  have hexp := h.expects s (by simp only [List.mem_append, List.mem_cons] at hs ⊢; tauto)
  obtain ⟨hp, hshows⟩ := h.split
  cases s with
  | idle => trivial
  | failed f => exact hexp
  | calling q =>
    have hstill : ∀ a, q.stake = some a → a.latches = true → d.word.isDrained = true →
        (p.access d).2.word = d.word := by
      intro a ha hlatches hdrained
      refine Point.access_still hshows hp (List.mem_append_right _ ?_) hlatches hdrained
      exact List.mem_flatMap.2 ⟨.calling q, hs, by simp [Stage.stake, ha]⟩
    cases q with
    | lockSwap upgrading seen =>
      obtain ⟨rfl, hdrained⟩ := hexp
      have hword := hstill (if upgrading then .upgrading else .closing)
        (by cases upgrading <;> rfl) (by cases upgrading <;> rfl) hdrained
      exact ⟨hword, hword ▸ hdrained⟩
    | leaveWriteSwap seen =>
      obtain ⟨rfl, hdrained⟩ := hexp
      have hword := hstill _ rfl rfl hdrained
      exact ⟨hword, hword ▸ hdrained⟩
    | _ => exact hexp

/-- The others rely on what they did, and the thread that went on on what it has now. -/
theorem Sound.of_split (hshows : d.word.Shows (s.stake.toList ++ among guards pre post))
    (hs : s.Expects d.word) (hothers : ∀ s ∈ pre ++ post, s.Expects d.word) :
    Sound ⟨d, guards, pre ++ s :: post⟩ := by
  refine ⟨hshows.perm stakes_split.symm, fun s' hs' => ?_⟩
  rw [List.mem_append, List.mem_cons] at hs'
  rcases hs' with hs' | rfl | hs'
  · exact hothers s' (List.mem_append_left _ hs')
  · exact hs
  · exact hothers s' (List.mem_append_right _ hs')

theorem Sound.call {c : Call} (h : Sound ⟨d, guards, pre ++ .idle :: post⟩)
    (hc : c.take guards = some guards') : Sound ⟨d, guards', pre ++ .calling c.point :: post⟩ := by
  refine .of_split (h.shows.perm (stakes_split.trans ?_)) (c.expects_point _) fun s hs => ?_
  · simp only [among, ← List.append_assoc]
    exact (Call.take_eq_some hc).symm.append_right _
  · exact h.expects s (by simp only [List.mem_append, List.mem_cons] at hs ⊢; tauto)

theorem Sound.access {r : Progress} (h : Sound ⟨d, guards, pre ++ .calling p :: post⟩)
    (hr : p.access d = (r, d'))
    (hroom : (stakes ⟨d', p.gains r ++ guards, pre ++ r.stage :: post⟩).count reader < Word.room) :
    Sound ⟨d', p.gains r ++ guards, pre ++ r.stage :: post⟩ := by
  obtain ⟨hp, hshows⟩ := h.split
  have hamong : among (p.gains r ++ guards) pre post =
      (p.gains r).map .guard ++ among guards pre post := by
    simp only [among, List.map_append, List.append_assoc]
  rw [stakes_split.count_eq, hamong, List.count_append] at hroom
  obtain ⟨hshows', hstage⟩ := Point.access_shows hshows hp hr (by omega)
  refine .of_split (hamong ▸ hshows') hstage fun s hs => ?_
  have hothers := h.others hs
  rwa [hr] at hothers

theorem exists_set {threads : List Stage} {i : ℕ} (h : threads[i]? = some s) (s' : Stage) :
    ∃ pre post, threads = pre ++ s :: post ∧ threads.set i s' = pre ++ s' :: post := by
  obtain ⟨hi, rfl⟩ := List.getElem?_eq_some_iff.1 h
  obtain ⟨pre, post, hpre, -, hset⟩ := @List.exists_of_set _ i s' _ hi
  exact ⟨pre, post, hpre, hset⟩

theorem Sound.step (h : t.Sound) {a : Action} (hstep : t.step a = some t')
    (hroom : t'.stakes.count reader < Word.room) : t'.Sound := by
  obtain ⟨d, guards, threads⟩ := t
  cases a with
  | call i c =>
    simp only [Traffic.step] at hstep
    split at hstep
    · rename_i hi
      obtain ⟨guards', hc, rfl⟩ := Option.map_eq_some_iff.1 hstep
      obtain ⟨pre, post, rfl, hset⟩ := exists_set hi (.calling c.point)
      rw [hset]
      exact h.call hc
    · cases hstep
  | access i =>
    simp only [Traffic.step] at hstep
    split at hstep
    · rename_i p hi
      cases hstep
      obtain ⟨pre, post, rfl, hset⟩ := exists_set hi (p.access d).1.stage
      rw [hset] at hroom ⊢
      exact h.access rfl hroom
    · cases hstep

theorem stakes_idle (hguards : t.guards = []) (hidle : ∀ s ∈ t.threads, s = .idle) :
    t.stakes = [] := by
  rw [stakes, hguards, List.map_nil, List.append_nil, List.flatMap_eq_nil_iff]
  intro s hs
  rw [hidle s hs]
  rfl

/-- `n` steps from a latch that is free and threads that hold nothing. At no time are there more readers
than the latch can count. -/
structure Run (t : ℕ → Traffic) (n : ℕ) : Prop where
  free : (t 0).door.word = .free
  unheld : (t 0).guards = []
  idle : ∀ s ∈ (t 0).threads, s = .idle
  step : ∀ i < n, ∃ a, (t i).step a = some (t (i + 1))
  room : ∀ i ≤ n, (t i).stakes.count reader < 2 ^ 29

namespace Run

variable {t : ℕ → Traffic}

theorem sound (h : Run t n) {i : ℕ} (hi : i ≤ n) : (t i).Sound := by
  induction i with
  | zero =>
    refine ⟨?_, fun s hs => ?_⟩
    · rw [h.free, stakes_idle h.unheld h.idle]
      exact .free
    · rw [h.idle s hs]
      trivial
  | succ i ih =>
    obtain ⟨a, ha⟩ := h.step i hi
    exact (ih (Nat.le_of_succ_le hi)).step ha (h.room _ hi)

end Run

end Traffic

end LatchTree.Latch
