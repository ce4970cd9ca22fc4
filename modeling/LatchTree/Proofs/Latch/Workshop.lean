import LatchTree.Proofs.Latch.Traffic

/-!
A value behind a latch, and any number of threads that read and change it. Each has guards of its own.
From the time that a thread has the reservation until it lets go of it, or of the lock that came of it,
no other thread writes; so no change is lost.
-/

namespace LatchTree.Latch

open Stake

/-- The access that lets a reservation or a lock go. -/
def Point.letsGo : Point → Bool
  | leaveReserve | leaveWriteSwap _ => true
  | _ => false

/-- A thread with the guards that it has. -/
structure Worker (α : Type) where
  stage : Stage := .idle
  guards : List Permission := []
  /-- What it has read of the value under the reservation or the lock that it still has. -/
  noted : Option α := none

/-- What a thread may do. It reads for a later change while it holds the reservation or the lock, and
writes while it holds the lock. -/
inductive Deed (α : Type) where
  | call (c : Call)
  | access
  | note
  /-- Stores what it makes of the value that it has noted. -/
  | store (f : α → α)
  /-- Stores a value, whatever was there before. -/
  | put (v : α)

/-- What the deed makes of the value. -/
def Deed.change {α : Type} : Deed α → Option (α → α)
  | store f => some f
  | put v => some fun _ => v
  | call _ | access | note => none

variable {α : Type}

/-- The latch, the value and the thread after the deed, if the thread can do it. -/
def Worker.act (x : Worker α) (d : Door) (value : α) : Deed α → Option (Door × α × Worker α)
  | .call c =>
    if x.stage = .idle then
      (c.take x.guards).map fun guards =>
        (d, value, { x with stage := .calling c.point, guards := guards })
    else none
  | .access =>
    match x.stage with
    | .calling p =>
      let (r, d) := p.access d
      some (d, value, ⟨r.stage, p.gains r ++ x.guards, if p.letsGo then none else x.noted⟩)
    | _ => none
  | .note =>
    if x.stage = .idle ∧ (.reserving ∈ x.guards ∨ .writing ∈ x.guards) then
      some (d, value, { x with noted := some value })
    else none
  | .store f =>
    if x.stage = .idle ∧ .writing ∈ x.guards then
      x.noted.map fun v => (d, f v, { x with noted := none })
    else none
  | .put v =>
    if x.stage = .idle ∧ .writing ∈ x.guards then some (d, v, { x with noted := none }) else none

def Worker.isParting (x : Worker α) : Bool :=
  match x.stage with
  | .calling p => p.letsGo
  | .idle | .failed _ => false

/-- One latch with the value behind it, and the threads that use it. -/
structure Workshop (α : Type) where
  door : Door
  value : α
  workers : List (Worker α)

namespace Workshop

/-- The `i`-th thread does something. -/
def step (w : Workshop α) (i : ℕ) (a : Deed α) : Option (Workshop α) :=
  w.workers[i]?.bind fun x =>
    (x.act w.door w.value a).map fun (door, value, x) => ⟨door, value, w.workers.set i x⟩

/-- The threads at their latch, with all guards in one pool. -/
def traffic (w : Workshop α) : Traffic :=
  ⟨w.door, w.workers.flatMap (·.guards), w.workers.map (·.stage)⟩

/-- The `i`-th thread has an upgradable guard. -/
def Reserved (w : Workshop α) (i : ℕ) : Prop :=
  ∃ x ∈ w.workers[i]?, .reserving ∈ x.guards

/-- The next access of the `i`-th thread lets go of the reservation, or of the lock. -/
def Parting (w : Workshop α) (i : ℕ) : Prop :=
  ∃ x ∈ w.workers[i]?, x.isParting = true

end Workshop

/-! ## What one thread has -/

namespace Worker

variable {x x' : Worker α} {d d' : Door} {value value' : α} {a : Deed α}

def stakes (x : Worker α) : List Stake :=
  x.stage.stake.toList ++ x.guards.map .guard

/-- It has more than guards for reading: the reservation, or the door that it has closed, or the lock. -/
def Claims (x : Worker α) : Prop :=
  ∃ a ∈ x.stakes, a ≠ reader

theorem claims_of_mem {p : Permission} (h : p ∈ x.guards) (hp : p ≠ .reading) : x.Claims :=
  ⟨.guard p, List.mem_append_right _ (List.mem_map_of_mem h), by simpa using hp⟩

theorem Claims.congr {y : Worker α} (h : x.Claims) (hs : x.stakes.Perm y.stakes) : y.Claims := by
  obtain ⟨a, ha, hne⟩ := h
  exact ⟨a, hs.mem_iff.1 ha, hne⟩

/-- The value after a deed. -/
theorem value_act (h : x.act d value a = some (d', value', x'))
    (hnoted : ∀ v, x.noted = some v → v = value) :
    value' = (a.change.map (· value)).getD value := by
  cases a with
  | call c =>
    simp only [act] at h
    split_ifs at h
    obtain ⟨guards, -, hx'⟩ := Option.map_eq_some_iff.1 h
    cases hx'
    rfl
  | access =>
    simp only [act] at h
    split at h <;> cases h
    rfl
  | note | put v =>
    simp only [act] at h
    split_ifs at h
    cases h
    rfl
  | store f =>
    simp only [act] at h
    split_ifs at h
    obtain ⟨v, hv, hx'⟩ := Option.map_eq_some_iff.1 h
    cases hx'
    rw [hnoted v hv]
    rfl

/-- A thread that has written has to read again before it stores what it makes of the value. -/
theorem noted_act (h : x.act d value a = some (d', value', x')) (ha : a.change ≠ none) :
    x'.noted = none := by
  cases a with
  | call c | access | note => exact absurd rfl ha
  | store f =>
    simp only [act] at h
    split_ifs at h
    obtain ⟨v, -, hx'⟩ := Option.map_eq_some_iff.1 h
    cases hx'
    rfl
  | put v =>
    simp only [act] at h
    split_ifs at h
    cases h
    rfl

/-- Only one that claims more than reading writes. -/
theorem claims_of_change (h : x.act d value a = some (d', value', x')) (ha : a.change ≠ none) :
    x.Claims := by
  have hwriting : .writing ∈ x.guards := by
    cases a with
    | call c | access | note => exact absurd rfl ha
    | store f | put v =>
      simp only [act] at h
      split_ifs at h with hx
      exact hx.2
  exact claims_of_mem hwriting (by decide)

end Worker

namespace Point

variable {d d' : Door} {p : Point} {r : Progress} {rest : List Stake} {a : Stake}

/-- An access keeps what the thread has of the latch beyond reading, unless it lets go of it. -/
theorem access_claims (hw : d.word.Shows (p.stake.toList ++ rest)) (he : p.Expects d.word)
    (h : p.access d = (r, d')) (hp : p.letsGo = false) (ha : a ∈ p.stake) (hne : a ≠ reader) :
    ∃ b ∈ r.stage.stake.toList ++ (p.gains r).map Stake.guard, b ≠ reader := by
  cases p with
  | readLoad _ | readSwap _ _ | reserveLoad | reserveSwap _ | writeLoad | writeSwap _ => cases ha
  | upgradeLatch =>
    simp only [access] at h
    rw [if_pos hw.reserved_admits] at h
    cases h
    exact ⟨.upgrading, by simp [Progress.stage, Stage.stake, stake], by decide⟩
  | lockLoad upgrading =>
    have hstake : r.stage.stake = (lockLoad upgrading).stake := by
      simp only [access] at h
      split_ifs at h <;> cases h <;> cases upgrading <;> rfl
    exact ⟨a, List.mem_append_left _ (by rw [hstake]; simpa using ha), hne⟩
  | lockSwap upgrading seen =>
    obtain ⟨rfl, -⟩ := he
    simp only [access, if_true] at h
    cases h
    exact ⟨.guard .writing, by simp [gains, grant], by decide⟩
  | leaveRead => exact absurd (Option.some.inj ha).symm hne
  | leaveReserve | leaveWriteSwap seen => cases hp
  | leaveWriteLoad =>
    simp only [access] at h
    rw [if_pos hw.writing_drained] at h
    cases h
    exact ⟨.guard .writing, by simp [Progress.stage, Stage.stake, stake], by decide⟩

end Point

/-! ## All threads -/

/-- The order of the guards says nothing. -/
theorem Traffic.Sound.perm {t : Traffic} {guards : List Permission} (h : t.Sound)
    (hg : t.guards.Perm guards) : Traffic.Sound { t with guards := guards } :=
  ⟨h.shows.perm ((hg.map Stake.guard).append_left _), h.expects⟩

theorem Call.take_append {c : Call} {guards guards' : List Permission} (h : c.take guards = some guards')
    (others : List Permission) : c.take (guards ++ others) = some (guards' ++ others) := by
  unfold take at h ⊢
  split at h
  · cases h
    rfl
  · split_ifs at h with hp
    cases h
    rw [if_pos (List.mem_append_left _ hp), List.erase_append_left _ hp]

namespace Workshop

variable {w w' : Workshop α} {d d' : Door} {value value' : α} {pre post : List (Worker α)}
  {x x' : Worker α} {a : Deed α}

/-- The word shows what the threads have, and what one has noted is the value. -/
structure Sound (w : Workshop α) : Prop where
  traffic : w.traffic.Sound
  noted : ∀ x ∈ w.workers, ∀ v, x.noted = some v → v = w.value ∧ x.Claims

theorem guards_perm : ((pre ++ x :: post).flatMap (·.guards)).Perm
    (x.guards ++ (pre ++ post).flatMap (·.guards)) :=
  List.Perm.flatMap_right _ List.perm_middle

theorem stages_split : (pre ++ x :: post).map (·.stage) =
    pre.map (·.stage) ++ x.stage :: post.map (·.stage) := by
  rw [List.map_append, List.map_cons]

/-- One thread apart from the others. -/
theorem traffic_split : (traffic ⟨d, value, pre ++ x :: post⟩).Sound ↔
    Traffic.Sound ⟨d, x.guards ++ (pre ++ post).flatMap (·.guards),
      pre.map (·.stage) ++ x.stage :: post.map (·.stage)⟩ := by
  rw [← stages_split]
  exact ⟨fun h => h.perm guards_perm, fun h => h.perm guards_perm.symm⟩

/-- Only one thread claims more than reading. -/
theorem Sound.alone (h : Sound ⟨d, value, pre ++ x :: post⟩) (hx : x.Claims) :
    ∀ y ∈ pre ++ post, ¬ y.Claims := by
  rintro y hy ⟨b, hb, hbne⟩
  obtain ⟨a, ha, hane⟩ := hx
  have hperm : (Workshop.mk d value (pre ++ x :: post)).traffic.stakes.Perm
      (x.stakes ++ (pre ++ post).flatMap Worker.stakes) := by
    refine List.Perm.trans ?_ (List.Perm.flatMap_right Worker.stakes List.perm_middle)
    rw [Traffic.stakes, Workshop.traffic, List.flatMap_map, List.map_flatMap]
    exact List.flatMap_append_perm ..
  have hsingle := h.traffic.shows.single
  rw [hperm.countP_eq, List.countP_append] at hsingle
  have hpos : 0 < x.stakes.countP (· ≠ reader) := List.countP_pos_iff.2 ⟨a, ha, by simpa using hane⟩
  have hpos' : 0 < ((pre ++ post).flatMap Worker.stakes).countP (· ≠ reader) :=
    List.countP_pos_iff.2 ⟨b, List.mem_flatMap.2 ⟨y, hy, hb⟩, by simpa using hbne⟩
  omega

/-! ## One deed -/

theorem Sound.act_traffic (h : Sound ⟨d, value, pre ++ x :: post⟩)
    (hact : x.act d value a = some (d', value', x'))
    (hroom : (Workshop.mk d' value' (pre ++ x' :: post)).traffic.stakes.count reader < Word.room) :
    (Workshop.mk d' value' (pre ++ x' :: post)).traffic.Sound := by
  have hs := traffic_split.1 h.traffic
  cases a with
  | call c =>
    simp only [Worker.act] at hact
    split_ifs at hact with hidle
    obtain ⟨guards, hc, hx'⟩ := Option.map_eq_some_iff.1 hact
    cases hx'
    rw [hidle] at hs
    exact traffic_split.2 (hs.call (Call.take_append hc _))
  | access =>
    simp only [Worker.act] at hact
    split at hact
    · rename_i p hp
      cases hact
      rw [hp] at hs
      refine traffic_split.2 ?_
      rw [Workshop.traffic, Traffic.stakes, (guards_perm.map Stake.guard).append_left _ |>.count_eq,
        stages_split, List.append_assoc] at hroom
      rw [List.append_assoc]
      exact hs.access rfl hroom
    · cases hact
  | note | put v =>
    simp only [Worker.act] at hact
    split_ifs at hact
    cases hact
    exact traffic_split.2 hs
  | store f =>
    simp only [Worker.act] at hact
    split_ifs at hact
    obtain ⟨v, -, hx'⟩ := Option.map_eq_some_iff.1 hact
    cases hx'
    exact traffic_split.2 hs

/-- What a thread claims it keeps, unless it lets go of it. -/
theorem Sound.act_claims (h : Sound ⟨d, value, pre ++ x :: post⟩)
    (hact : x.act d value a = some (d', value', x')) (hx : x.Claims)
    (hparting : a = .access → x.isParting = false) : x'.Claims := by
  cases a with
  | call c =>
    simp only [Worker.act] at hact
    split_ifs at hact with hidle
    obtain ⟨guards, hc, hx'⟩ := Option.map_eq_some_iff.1 hact
    cases hx'
    refine hx.congr ?_
    rw [Worker.stakes, hidle]
    exact (Call.take_eq_some hc).symm
  | access =>
    simp only [Worker.act] at hact
    split at hact
    · rename_i p hp
      cases hact
      obtain ⟨b, hb, hne⟩ := hx
      rw [Worker.stakes, List.mem_append, hp] at hb
      rcases hb with hb | hb
      · have hs := traffic_split.1 h.traffic
        rw [hp] at hs
        obtain ⟨hexpects, hshows⟩ := hs.split
        have hgo : p.letsGo = false := by simpa [Worker.isParting, hp] using hparting rfl
        obtain ⟨c, hc, hcne⟩ :=
          Point.access_claims hshows hexpects rfl hgo (Option.mem_toList.1 hb) hne
        refine ⟨c, ?_, hcne⟩
        rw [Worker.stakes, List.map_append, ← List.append_assoc]
        exact List.mem_append_left _ hc
      · refine ⟨b, ?_, hne⟩
        rw [Worker.stakes, List.map_append]
        exact List.mem_append_right _ (List.mem_append_right _ hb)
    · cases hact
  | note | put v =>
    simp only [Worker.act] at hact
    split_ifs at hact
    cases hact
    exact hx
  | store f =>
    simp only [Worker.act] at hact
    split_ifs at hact
    obtain ⟨v, -, hx'⟩ := Option.map_eq_some_iff.1 hact
    cases hx'
    exact hx

/-- Who writes is the only one that may have noted the value. -/
theorem Sound.act_noted (h : Sound ⟨d, value, pre ++ x :: post⟩)
    (hact : x.act d value a = some (d', value', x')) :
    ∀ y ∈ pre ++ x' :: post, ∀ v, y.noted = some v → v = value' ∧ y.Claims := by
  have hold : ∀ y ∈ pre ++ x :: post, ∀ v, y.noted = some v → v = value ∧ y.Claims := h.noted
  have hvalue := Worker.value_act hact fun v hv => (hold x (by simp) v hv).1
  intro y hy v hv
  have hy : y = x' ∨ y ∈ pre ++ post := by
    simp only [List.mem_append, List.mem_cons] at hy ⊢
    tauto
  by_cases hchange : a.change = none
  · rw [hchange] at hvalue
    cases hvalue
    rcases hy with rfl | hy
    · -- what it has noted it has noted now, or it still claims what it did
      cases a with
      | call c =>
        have hnoted : y.noted = x.noted := by
          simp only [Worker.act] at hact
          split_ifs at hact
          obtain ⟨guards, -, hx'⟩ := Option.map_eq_some_iff.1 hact
          cases hx'
          rfl
        have hx := hold x (by simp) v (hnoted ▸ hv)
        exact ⟨hx.1, h.act_claims hact hx.2 (by simp)⟩
      | access =>
        have hnoted : x.noted = some v ∧ x.isParting = false := by
          simp only [Worker.act] at hact
          split at hact
          · rename_i p hp
            cases hact
            split_ifs at hv with hgo
            exact ⟨hv, by simpa [Worker.isParting, hp] using hgo⟩
          · cases hact
        have hx := hold x (by simp) v hnoted.1
        exact ⟨hx.1, h.act_claims hact hx.2 fun _ => hnoted.2⟩
      | note =>
        simp only [Worker.act] at hact
        split_ifs at hact with hguard
        cases hact
        refine ⟨(Option.some.inj hv).symm, ?_⟩
        rcases hguard.2 with hguard | hguard
        · exact Worker.claims_of_mem hguard (by decide)
        · exact Worker.claims_of_mem hguard (by decide)
      | store f | put v => cases hchange
    · refine hold y ?_ v hv
      simp only [List.mem_append, List.mem_cons] at hy ⊢
      tauto
  · rcases hy with rfl | hy
    · rw [Worker.noted_act hact hchange] at hv
      cases hv
    · have hy' : y ∈ pre ++ x :: post := by
        simp only [List.mem_append, List.mem_cons] at hy ⊢
        tauto
      exact absurd (hold y hy' v hv).2 (h.alone (Worker.claims_of_change hact hchange) y hy)

/-! ## Steps -/

theorem step_split {i : ℕ} (h : w.step i a = some w') : ∃ pre x post d' value' x',
    w = ⟨w.door, w.value, pre ++ x :: post⟩ ∧ pre.length = i ∧
      x.act w.door w.value a = some (d', value', x') ∧ w' = ⟨d', value', pre ++ x' :: post⟩ := by
  obtain ⟨x, hx, hw'⟩ := Option.bind_eq_some_iff.1 h
  obtain ⟨⟨d', value', x'⟩, hact, rfl⟩ := Option.map_eq_some_iff.1 hw'
  obtain ⟨hi, rfl⟩ := List.getElem?_eq_some_iff.1 hx
  obtain ⟨pre, post, hpre, hlength, hset⟩ := @List.exists_of_set _ i x' _ hi
  refine ⟨pre, _, post, d', value', x', ?_, hlength, hact, by simp only [hset]⟩
  rw [← hpre]

theorem Sound.step (h : w.Sound) {i : ℕ} (hstep : w.step i a = some w')
    (hroom : w'.traffic.stakes.count reader < Word.room) : w'.Sound := by
  obtain ⟨pre, x, post, d', value', x', hw, -, hact, rfl⟩ := step_split hstep
  rw [hw] at h
  exact ⟨h.act_traffic hact hroom, h.act_noted hact⟩

/-- The value after a step. -/
theorem Sound.value_step (h : w.Sound) {i : ℕ} (hstep : w.step i a = some w') :
    w'.value = (a.change.map (· w.value)).getD w.value := by
  obtain ⟨pre, x, post, d', value', x', hw, -, hact, rfl⟩ := step_split hstep
  rw [hw] at h
  exact Worker.value_act hact fun v hv => (h.noted x (by simp) v hv).1

/-- The `i`-th thread has more than guards for reading. -/
def Claimed (w : Workshop α) (i : ℕ) : Prop :=
  ∃ x ∈ w.workers[i]?, x.Claims

theorem Reserved.claimed {i : ℕ} (h : w.Reserved i) : w.Claimed i := by
  obtain ⟨x, hx, hmem⟩ := h
  exact ⟨x, hx, Worker.claims_of_mem hmem (by decide)⟩

/-- While one thread claims more than reading, no other writes. -/
theorem Sound.change_eq_none (h : w.Sound) {i j : ℕ} (hstep : w.step j a = some w')
    (hi : w.Claimed i) (hij : j ≠ i) : a.change = none := by
  by_contra hchange
  obtain ⟨y, hy, hclaims⟩ := hi
  obtain ⟨pre, x, post, d', value', x', hw, hj, hact, -⟩ := step_split hstep
  have herase : (pre ++ x :: post).eraseIdx j = pre ++ post := by
    rw [List.eraseIdx_append_of_length_le hj.le, hj, Nat.sub_self, List.eraseIdx_cons_zero]
  have hmem : y ∈ pre ++ post := by
    rw [← herase, List.mem_eraseIdx_iff_getElem?]
    exact ⟨i, hij.symm, by rw [hw] at hy; exact hy⟩
  rw [hw] at h
  exact h.alone (Worker.claims_of_change hact hchange) y hmem hclaims

theorem Sound.claimed_step (h : w.Sound) {i j : ℕ} (hstep : w.step j a = some w') (hi : w.Claimed i)
    (hparting : j = i → a = .access → ¬ w.Parting i) : w'.Claimed i := by
  obtain ⟨y, hy, hclaims⟩ := hi
  obtain ⟨pre, x, post, d', value', x', hw, rfl, hact, rfl⟩ := step_split hstep
  rw [hw] at hy h
  by_cases hij : pre.length = i
  · subst hij
    have hyx : y = x := by simpa using hy.symm
    subst hyx
    refine ⟨x', by simp, h.act_claims hact hclaims fun ha => ?_⟩
    have hparting := hparting rfl ha
    rw [hw] at hparting
    exact Bool.not_eq_true _ ▸ fun hgo => hparting ⟨y, hy, hgo⟩
  · refine ⟨y, ?_, hclaims⟩
    have hset : (pre ++ x :: post).set pre.length x' = pre ++ x' :: post := by simp
    rw [← hset, List.getElem?_set_ne hij]
    exact hy

/-! ## Runs -/

/-- `n` steps from a latch that is free and threads that have nothing. At no time are there more readers
than the latch can count. -/
structure Run (w : ℕ → Workshop α) (acts : ℕ → ℕ × Deed α) (n : ℕ) : Prop where
  free : (w 0).door.word = .free
  fresh : ∀ x ∈ (w 0).workers, x = {}
  step : ∀ k < n, (w k).step (acts k).1 (acts k).2 = some (w (k + 1))
  room : ∀ k ≤ n, (w k).traffic.stakes.count reader < 2 ^ 29

/-- All changes of the value in the first `n` steps, in their order. -/
def changes (acts : ℕ → ℕ × Deed α) (n : ℕ) : List (α → α) :=
  (List.range n).filterMap fun k => (acts k).2.change

namespace Run

variable {w : ℕ → Workshop α} {acts : ℕ → ℕ × Deed α} {n : ℕ}

theorem sound (h : Run w acts n) {k : ℕ} (hk : k ≤ n) : (w k).Sound := by
  induction k with
  | zero =>
    refine ⟨⟨?_, ?_⟩, fun x hx v hv => ?_⟩
    · have hstakes : (w 0).traffic.stakes = [] := by
        refine Traffic.stakes_idle ?_ ?_
        · exact List.flatMap_eq_nil_iff.2 fun x hx => by rw [h.fresh x hx]
        · rintro s hs
          obtain ⟨x, hx, rfl⟩ := List.mem_map.1 hs
          rw [h.fresh x hx]
      rw [hstakes, show (w 0).traffic.door.word = .free from h.free]
      exact .free
    · rintro s hs
      obtain ⟨x, hx, rfl⟩ := List.mem_map.1 hs
      rw [h.fresh x hx]
      trivial
    · rw [h.fresh x hx] at hv
      cases hv
  | succ k ih => exact (ih (Nat.le_of_succ_le hk)).step (h.step k hk) (h.room _ hk)

/-- From the time that a thread has the reservation, until it lets go of what came of it, it claims
more than reading. -/
theorem claimed (h : Run w acts n) {i a b : ℕ} (hb : b ≤ n) (ha : (w a).Reserved i)
    (hparting : ∀ k, a ≤ k → k < b → acts k = (i, .access) → ¬ (w k).Parting i) {k : ℕ}
    (hak : a ≤ k) (hkb : k ≤ b) : (w k).Claimed i := by
  induction k, hak using Nat.le_induction with
  | base => exact ha.claimed
  | succ k hak ih =>
    refine (h.sound (by omega)).claimed_step (h.step k (by omega)) (ih (by omega)) fun hi hacc => ?_
    exact hparting k hak hkb (Prod.ext hi hacc)

/-- From the time that a thread has an upgradable guard until it lets go of it, or of the lock that it
was upgraded to, no other thread writes the value. So the value is what all changes make of it, one
after the other, each applied to what the one before it left. -/
theorem no_change_lost (h : Run w acts n) :
    (∀ i a b, b ≤ n → (w a).Reserved i →
      (∀ k, a ≤ k → k < b → acts k = (i, .access) → ¬ (w k).Parting i) →
      ∀ k, a ≤ k → k < b → (acts k).1 ≠ i →
        (acts k).2.change = none ∧ (w (k + 1)).value = (w k).value) ∧
    (w n).value = (changes acts n).foldl (fun v f => f v) (w 0).value := by
  constructor
  · intro i a b hb ha hparting k hak hkb hi
    have hsound := h.sound (show k ≤ n by omega)
    have hstep := h.step k (by omega)
    have hnone := hsound.change_eq_none hstep (h.claimed hb ha hparting hak hkb.le) hi
    refine ⟨hnone, ?_⟩
    rw [hsound.value_step hstep, hnone]
    rfl
  · have hprefix : ∀ k ≤ n, (w k).value = (changes acts k).foldl (fun v f => f v) (w 0).value := by
      intro k
      induction k with
      | zero => exact fun _ => rfl
      | succ k ih =>
        intro hk
        have hvalue := (h.sound (Nat.le_of_succ_le hk)).value_step (h.step k hk)
        rw [ih (Nat.le_of_succ_le hk)] at hvalue
        rw [hvalue, changes, changes, List.range_succ, List.filterMap_append, List.foldl_append]
        cases hchange : (acts k).2.change <;> simp [hchange]
    exact hprefix n le_rfl

end Run

/-- Where the first deeds lead, from a free latch. One that is not possible changes nothing. -/
def follow (threads : ℕ) (value : α) (as : List (ℕ × Deed α)) (k : ℕ) : Workshop α :=
  (as.take k).foldl (fun w a => (w.step a.1 a.2).getD w) ⟨{ rank := 0 }, value, .replicate threads {}⟩

theorem run_follow {threads n : ℕ} {value : α} {as : List (ℕ × Deed α)}
    (hstep : ∀ k < n, (as[k]?.bind fun a => (follow threads value as k).step a.1 a.2).isSome)
    (hroom : ∀ k ≤ n, (follow threads value as k).traffic.stakes.count reader < 2 ^ 29) :
    Run (follow threads value as) (fun k => as.getD k (0, .access)) n where
  free := rfl
  fresh := fun _ hx => List.eq_of_mem_replicate hx
  step k hk := by
    obtain ⟨w, hw⟩ := Option.isSome_iff_exists.1 (hstep k hk)
    obtain ⟨a, ha, haw⟩ := Option.bind_eq_some_iff.1 hw
    have hnext : follow threads value as (k + 1) =
        ((follow threads value as k).step a.1 a.2).getD (follow threads value as k) := by
      rw [follow, List.take_add_one, ha, List.foldl_append]
      rfl
    rw [hnext, haw, List.getD_eq_getElem?_getD, ha]
    exact haw
  room := hroom

/-- Both threads want to count up. The first reads under its reservation, with a reader inside, and has
to wait for it to leave; meanwhile the second one, which wants to double, is kept out. -/
def countAndDouble : List (ℕ × Deed ℕ) :=
  [(0, .call .reserve), (0, .access), (0, .access), (0, .note), (2, .call .read), (2, .access), (2, .access),
    (0, .call .upgrade), (0, .access), (0, .access), (1, .call .write), (1, .access),
    (2, .call (.drop .reading)), (2, .access), (0, .access), (1, .access), (0, .access),
    (0, .store (· + 1)), (1, .access), (0, .call (.drop .writing)), (0, .access), (0, .access),
    (1, .access), (1, .access), (1, .access), (1, .access), (1, .note), (1, .store (2 * ·))]

theorem Run.no_change_lost_countAndDouble : (follow 3 5 countAndDouble 4).Reserved 0 ∧
    (follow 3 5 countAndDouble 28).value = 12 ∧
    ∀ k, 4 ≤ k → k < 21 → ((countAndDouble.getD k (0, .access)).1 ≠ 0 →
      (follow 3 5 countAndDouble (k + 1)).value = (follow 3 5 countAndDouble k).value) := by
  have hrun : Run (follow 3 5 countAndDouble) (fun k => countAndDouble.getD k (0, .access)) 28 :=
    run_follow (by decide +kernel) (by decide +kernel)
  have hreserved : (follow 3 5 countAndDouble 4).Reserved 0 :=
    ⟨⟨.idle, [.reserving], some 5⟩, rfl, by decide⟩
  have hparting : ∀ k < 21, ¬ (follow 3 5 countAndDouble k).Parting 0 := by
    unfold Parting
    decide +kernel
  obtain ⟨halone, hvalue⟩ := hrun.no_change_lost
  refine ⟨hreserved, hvalue, fun k hk hk' hi => ?_⟩
  exact (halone 0 4 21 (by decide) hreserved (fun k _ hk _ => hparting k hk) k hk hk' hi).2

end Workshop

end LatchTree.Latch
