import LatchTree.Proofs.Index.Reached

/-!
What a caller leaves behind who gives up while it holds writers off. A mutex is poisoned by it: from then
on what needs the mutex is refused, the tree stays as it is, and all else is answered as before. A latch
is let go, and nothing tells that it was held.
-/

namespace LatchTree

variable {K V : Type} {cmp : K → K → Ordering}

namespace Index

/-- What a caller may do with an index. -/
inductive Task (K V : Type) where
  | call (c : Call K V)
  | stats
  /-- Writers are held off while calls are made, and in the end the caller may give up. -/
  | quiesce (cs : List (Call K V)) (raises : Option String)

inductive Outcome (K V : Type) where
  | reply (r : Reply K V)
  | stats (s : Stats)
  | replies (rs : List (Reply K V))

def task (cmp : K → K → Ordering) (ix : Index K V) :
    Task K V → Except Halt (Outcome K V) × Index K V
  | .call c => (ix.call cmp c).map (·.map .reply) id
  | .stats => (.ok (.stats ix.stats), ix)
  | .quiesce cs raises => ix.under ix.strategy.quietPermit fun ix =>
    match ix.calls cmp cs, raises with
    | (.ok rs, ix), none => (.ok (.replies rs), ix)
    | (.ok _, ix), some message => (.error (.fault (.raised message)), ix)
    | (.error h, ix), _ => (.error h, ix)

/-- Tasks in order, whatever becomes of each of them. -/
def tasks (cmp : K → K → Ordering) :
    Index K V → List (Task K V) → List (Except Halt (Outcome K V)) × Index K V
  | ix, [] => ([], ix)
  | ix, o :: os => (tasks cmp (ix.task cmp o).2 os).map ((ix.task cmp o).1 :: ·) id

/-- The permit that a task needs, if any. -/
def Task.permit? (σ : Strategy) : Task K V → Option Permit
  | .call c => c.permit? σ
  | .stats => none
  | .quiesce _ _ => some σ.quietPermit

/-- Between two tasks, however many there were. A task that waits forever never ends. -/
inductive Arises (cmp : K → K → Ordering) : Index K V → Prop
  | start (c : Config) : Arises cmp (.ofConfig c)
  | task {ix : Index K V} (h : Arises cmp ix) (o : Task K V)
      (ho : (ix.task cmp o).1 ≠ .error .waiting) : Arises cmp (ix.task cmp o).2

variable {ix : Index K V} {t : Shape K V}

/-! ## Calls while writers are held off -/

/-- The index while writers are held off. -/
def quiet (ix : Index K V) : Index K V :=
  if ix.strategy = .readWrite then { ix with latch := ix.latch.enter }
  else { ix with mutex := { ix.mutex with locked := true } }

theorem Idle.acquire_quiet (hix : ix.Idle) (hm : ix.mutex.poisoned = false) :
    ix.acquire ix.strategy.quietPermit = .ok ix.quiet := by
  obtain ⟨name, strategy, spin, ⟨locked, poisoned⟩, latch, s⟩ := ix
  obtain ⟨hlocked, hlatch⟩ := hix
  simp only at hlocked hlatch hm
  subst hlocked hlatch hm
  cases strategy with
  | global => rfl
  | coupled => rfl
  | readWrite =>
    have hadmits : Latch.Word.free.admitsReader = true := by decide
    simp [acquire, Strategy.quietPermit, quiet, hadmits]

/-- What only reads runs beside other readers, and leaves the index as it was. -/
theorem under_shared {α : Type} (hw : ix.latch.admitsReader = true)
    (body : Index K V → Except Halt α × Index K V) {a : α}
    (hbody : body { ix with latch := ix.latch.enter } = (.ok a, { ix with latch := ix.latch.enter })) :
    ix.under .shared body = (.ok a, ix) := by
  simp only [under, acquire, hw, if_true, hbody, release, Latch.Word.leave_enter]

theorem call_shared (hw : ix.latch.admitsReader = true) (hs : ix.store.UnlatchedTree t)
    (cmp : K → K → Ordering) {c : Call K V} (hp : c.permit? ix.strategy = some .shared) :
    ∃ r, ix.call cmp c = (.ok r, ix) := by
  cases c with
  | op o =>
    obtain ⟨k, act⟩ := o
    cases act with
    | set v | insert v | remove | erase =>
      have hwrite : ix.strategy.writePermit ≠ .shared := by cases ix.strategy <;> decide
      exact absurd (Option.some.inj hp) hwrite
    | lookup =>
      change ix.strategy.readPermit = some .shared at hp
      have hrun := under_shared (a := t.found cmp k) hw
        (fun ix => ix.onStore fun s => s.find cmp k) (by simp only [onStore, hs.find cmp k])
      refine ⟨.value (t.found cmp k), ?_⟩
      simp only [Index.call, op, lookup, hp, hrun]
      rfl
  | len => cases hp
  | validate => cases hp
  | verify =>
    have hquiet : ix.strategy.quietPermit = .shared := Option.some.inj hp
    obtain ⟨res, hres⟩ := hs.validate cmp
    have hres : ix.store.validate cmp = (.ok res, ix.store) := hres ix.store.spin
    have hrun : ix.verify cmp = (.ok (res.map { ix with latch := ix.latch.enter }.stats.withReport), ix) := by
      rw [verify, hquiet]
      refine under_shared hw _ ?_
      simp only [onStore, hres]
      rfl
    refine ⟨.verified (res.map { ix with latch := ix.latch.enter }.stats.withReport), ?_⟩
    simp only [Index.call, hrun]
    rfl

/-- A call made while writers are held off is answered and changes nothing, or waits forever. -/
theorem Idle.quiet_call (hix : ix.Idle) (hs : ix.store.UnlatchedTree t) (cmp : K → K → Ordering)
    (c : Call K V) : (∃ r, ix.quiet.call cmp c = (.ok r, ix.quiet)) ∨
      ix.quiet.call cmp c = (.error .waiting, ix.quiet) := by
  by_cases hσ : ix.strategy = .readWrite
  · have hquiet : ix.quiet = { ix with latch := ix.latch.enter } := if_pos hσ
    rw [hquiet, hix.latch]
    cases hp : c.permit? ix.strategy with
    | none =>
      obtain ⟨r, hr⟩ := call_open hs cmp hp
      exact .inl ⟨r, hr ix.mutex _⟩
    | some p => cases p with
      | mutex => exact absurd hσ ((Call.mutex_iff hp).1 rfl)
      | shared =>
        have hadmits : Latch.Word.free.enter.admitsReader = true := by decide
        have hat : ({ ix with latch := Latch.Word.free.enter } : Index K V).store.UnlatchedTree t := hs
        exact .inl (call_shared hadmits hat cmp hp)
      | exclusive =>
        have hadmits : (Latch.Word.free.enter.admitsWriter && Latch.Word.free.enter.isDrained) =
            false := by decide
        refine .inr (call_of_acquire cmp hp ?_)
        simp only [acquire, hadmits]
        rfl
  · have hquiet : ix.quiet = { ix with mutex := { ix.mutex with locked := true } } := if_neg hσ
    rw [hquiet]
    cases hp : c.permit? ix.strategy with
    | none =>
      obtain ⟨r, hr⟩ := call_open hs cmp hp
      exact .inl ⟨r, hr _ ix.latch⟩
    | some p =>
      obtain rfl := (Call.mutex_iff hp).2 hσ
      exact .inr (call_of_acquire cmp hp rfl)

theorem Idle.quiet_calls (hix : ix.Idle) (hs : ix.store.UnlatchedTree t) (cmp : K → K → Ordering)
    (cs : List (Call K V)) : (∃ rs, ix.quiet.calls cmp cs = (.ok rs, ix.quiet)) ∨
      ix.quiet.calls cmp cs = (.error .waiting, ix.quiet) := by
  induction cs with
  | nil => exact .inl ⟨[], rfl⟩
  | cons c cs ih =>
    rcases hix.quiet_call hs cmp c with ⟨r, hr⟩ | hr
    · rcases ih with ⟨rs, hrs⟩ | hrs
      · exact .inl ⟨r :: rs, by simp only [Index.calls, hr, hrs]; rfl⟩
      · exact .inr (by simp only [Index.calls, hr, hrs]; rfl)
    · exact .inr (by simp only [Index.calls, hr])

/-- What is left when a caller gives up who held writers off. -/
def abandoned (ix : Index K V) : Index K V :=
  if ix.strategy = .readWrite then ix else { ix with mutex := ⟨false, true⟩ }

theorem Idle.release_quiet (hix : ix.Idle) (hm : ix.mutex.poisoned = false) :
    ix.quiet.release false ix.strategy.quietPermit = ix ∧
      ix.quiet.release true ix.strategy.quietPermit = ix.abandoned := by
  obtain ⟨name, strategy, spin, ⟨locked, poisoned⟩, latch, s⟩ := ix
  obtain ⟨hlocked, hlatch⟩ := hix
  simp only at hlocked hlatch hm
  subst hlocked hlatch hm
  cases strategy with
  | global => exact ⟨rfl, rfl⟩
  | coupled => exact ⟨rfl, rfl⟩
  | readWrite =>
    simp [quiet, abandoned, release, Strategy.quietPermit, Latch.Word.leave_enter]

/-- Holding writers off ends in giving up or not, as the caller will, or never. -/
theorem Idle.quiesce (hix : ix.Idle) (hm : ix.mutex.poisoned = false) (hs : ix.store.UnlatchedTree t)
    (cmp : K → K → Ordering) (cs : List (Call K V)) :
    (∃ rs, ix.task cmp (.quiesce cs none) = (.ok (.replies rs), ix) ∧ ∀ message,
      ix.task cmp (.quiesce cs (some message)) = (.error (.fault (.raised message)), ix.abandoned)) ∨
    ∀ raises, (ix.task cmp (.quiesce cs raises)).1 = .error .waiting := by
  have hacquire := hix.acquire_quiet hm
  obtain ⟨hkept, hgiven⟩ := hix.release_quiet hm
  rcases hix.quiet_calls hs cmp cs with ⟨rs, hrs⟩ | hrs
  · refine .inl ⟨rs, ?_, fun message => ?_⟩
    · simp only [task, Index.under, hacquire, hrs, hkept]
    · simp only [task, Index.under, hacquire, hrs, hgiven]
  · refine .inr fun raises => ?_
    simp only [task, Index.under, hacquire, hrs]

/-! ## Tasks -/

namespace Settled

theorem abandoned (h : ix.Settled) : ix.abandoned.Settled := by
  rw [Index.abandoned]
  split_ifs with hσ
  · exact h
  · exact ⟨⟨rfl, h.idle.latch⟩, h.unlatched, fun hσ' => absurd hσ' hσ⟩

/-- A task that wants the mutex is refused once it is poisoned. -/
theorem task_poisoned (h : ix.Settled) (hm : ix.mutex.poisoned = true) (cmp : K → K → Ordering)
    {o : Task K V} (ho : o.permit? ix.strategy = some .mutex) :
    ix.task cmp o = (.error (.fault (.poisoned ix.name)), ix) := by
  have hacquire := h.idle.acquire_poisoned hm
  cases o with
  | call c =>
    simp only [Index.task, call_of_acquire cmp ho hacquire]
    rfl
  | stats => cases ho
  | quiesce cs raises =>
    have hquiet : ix.strategy.quietPermit = .mutex := Option.some.inj ho
    simp only [Index.task, hquiet]
    exact under_of_acquire hacquire _

theorem task (h : ix.Settled) (cmp : K → K → Ordering) (o : Task K V)
    (ho : (ix.task cmp o).1 ≠ .error .waiting) : (ix.task cmp o).2.Settled := by
  cases o with
  | call c => exact h.call cmp c
  | stats => exact h
  | quiesce cs raises =>
    cases hm : ix.mutex.poisoned with
    | true =>
      have hσ : ix.strategy ≠ .readWrite := fun hσ => by simp [h.poisoned hσ] at hm
      have hquiet : ix.strategy.quietPermit = .mutex := by
        cases hstrategy : ix.strategy with
        | readWrite => exact absurd hstrategy hσ
        | _ => rfl
      rwa [h.task_poisoned hm cmp (o := .quiesce cs raises) (congrArg some hquiet)]
    | false =>
      obtain ⟨t, htree⟩ := h.unlatched
      rcases h.idle.quiesce hm htree cmp cs with ⟨rs, hdone, hraised⟩ | hwaits
      · cases raises with
        | none => rwa [hdone]
        | some message =>
          rw [hraised]
          exact h.abandoned
      · exact absurd (hwaits raises) ho

end Settled

theorem Arises.settled (h : ix.Arises cmp) : ix.Settled := by
  induction h with
  | start c => exact ⟨⟨rfl, rfl⟩, ⟨_, Store.UnlatchedTree.empty c.spin⟩, fun _ => rfl⟩
  | task _ o ho ih => exact ih.task cmp o ho

/-- A task that needs no permit is answered as if the mutex were not poisoned. -/
theorem Settled.task_open (h : ix.Settled) (cmp : K → K → Ordering) {o : Task K V}
    (ho : o.permit? ix.strategy = none) : ∃ a, ∀ m, { ix with mutex := m }.task cmp o =
      (.ok a, { ix with mutex := m }) := by
  cases o with
  | call c =>
    obtain ⟨t, htree⟩ := h.unlatched
    obtain ⟨r, hr⟩ := call_open htree cmp ho
    refine ⟨.reply r, fun m => ?_⟩
    simp only [Index.task, show { ix with mutex := m }.call cmp c = _ from hr m ix.latch]
    rfl
  | stats => exact ⟨.stats ix.stats, fun m => rfl⟩
  | quiesce cs raises => cases ho

theorem Task.mutex_iff {σ : Strategy} {o : Task K V} {p : Permit} (hp : o.permit? σ = some p) :
    p = .mutex ↔ σ ≠ .readWrite := by
  cases o with
  | call c => exact Call.mutex_iff hp
  | stats => cases hp
  | quiesce cs raises =>
    obtain rfl := Option.some.inj hp
    cases σ <;> decide

theorem tasks_of_still {f : Task K V → Except Halt (Outcome K V)}
    (h : ∀ o, ix.task cmp o = (f o, ix)) (os : List (Task K V)) :
    ix.tasks cmp os = (os.map f, ix) := by
  induction os with
  | nil => rfl
  | cons o os ih =>
    simp only [tasks, h o, ih]
    rfl

theorem Settled.raised (h : ix.Settled) {ix₁ : Index K V} {cs : List (Call K V)}
    {message : String} {f : Fault}
    (hraised : ix.task cmp (.quiesce cs (some message)) = (.error (.fault f), ix₁)) :
    ix₁ = ix.abandoned ∧
      (ix.strategy = .readWrite → (ix.task cmp (.quiesce cs none)).2 = ix) := by
  cases hm : ix.mutex.poisoned with
  | true =>
    have hσ : ix.strategy ≠ .readWrite := fun hσ => by simp [h.poisoned hσ] at hm
    have hquiet := (Task.mutex_iff (o := .quiesce cs (some message)) rfl).2 hσ
    have hrefused := h.task_poisoned hm cmp (o := .quiesce cs (some message))
      (congrArg some hquiet)
    have hmutex : ix.mutex = ⟨false, true⟩ := by rw [← h.idle.locked, ← hm]
    refine ⟨(Prod.mk.inj (hraised.symm.trans hrefused)).2.trans ?_, fun hσ' => absurd hσ' hσ⟩
    rw [Index.abandoned, if_neg hσ, ← hmutex]
  | false =>
    obtain ⟨t, htree⟩ := h.unlatched
    rcases h.idle.quiesce hm htree cmp cs with ⟨rs, hdone, hraises⟩ | hwaits
    · exact ⟨(Prod.mk.inj (hraised.symm.trans (hraises message))).2, fun _ => by rw [hdone]⟩
    · exact absurd (hwaits (some message)) (by simp [hraised])

/-- After a caller has given up who held writers off, an index that uses the mutex refuses all that
needs it, answers all else as before, and never changes again. One that uses the latch is as if the
caller had let go. -/
theorem tasks_of_raised (h : ix.Arises cmp) {ix₁ : Index K V} {cs : List (Call K V)}
    {message : String} {f : Fault}
    (hraised : ix.task cmp (.quiesce cs (some message)) = (.error (.fault f), ix₁)) :
    (ix.strategy ≠ .readWrite → ix₁ = { ix with mutex := ⟨false, true⟩ } ∧
      (∀ o, o.permit? ix.strategy ≠ some .mutex → ∃ a, ix.task cmp o = (.ok a, ix)) ∧
      ∀ os, ix₁.tasks cmp os = (os.map fun o => if o.permit? ix.strategy = some .mutex then
        .error (.fault (.poisoned ix.name)) else (ix.task cmp o).1, ix₁)) ∧
    (ix.strategy = .readWrite → ix₁ = ix ∧
      ∀ os, ix₁.tasks cmp os = (ix.task cmp (.quiesce cs none)).2.tasks cmp os) := by
  have hsettled := h.settled
  obtain ⟨rfl, hdone⟩ := hsettled.raised hraised
  refine ⟨fun hσ => ?_, fun hσ => ?_⟩
  · have hix₁ : ix.abandoned = { ix with mutex := ⟨false, true⟩ } := if_neg hσ
    have hopen : ∀ o : Task K V, o.permit? ix.strategy ≠ some .mutex → ∃ a, ∀ m,
        { ix with mutex := m }.task cmp o = (.ok a, { ix with mutex := m }) := by
      intro o ho
      cases hp : o.permit? ix.strategy with
      | none => exact hsettled.task_open cmp hp
      | some p => exact absurd (hp.trans (congrArg some ((Task.mutex_iff hp).2 hσ))) ho
    refine ⟨hix₁, fun o ho => ?_, fun os => tasks_of_still (fun o => ?_) os⟩
    · obtain ⟨a, ha⟩ := hopen o ho
      exact ⟨a, ha ix.mutex⟩
    · split_ifs with ho
      · have hpoisoned := hsettled.abandoned
        rw [hix₁] at hpoisoned ⊢
        exact hpoisoned.task_poisoned rfl cmp ho
      · obtain ⟨a, ha⟩ := hopen o ho
        rw [hix₁, ha, show ix.task cmp o = _ from ha ix.mutex]
  · refine ⟨if_pos hσ, fun os => ?_⟩
    rw [hdone hσ, show ix.abandoned = ix from if_pos hσ]

/-- An index with one entry. -/
def laden : Index ℕ ℕ :=
  ((ofConfig ⟨"rbt", .coupled, true⟩).task compare (.call (.op ⟨5, .set 50⟩))).2

/-- Why there is no answer, if there is none. -/
def halt? (r : Except Halt (Outcome ℕ ℕ)) : Option Halt :=
  match r with
  | .ok _ => none
  | .error h => some h

/-- A caller looks an entry up and gives up. -/
theorem tasks_of_raised_laden : ∃ ix₁ a,
    laden.task compare (.quiesce [.op ⟨5, .lookup⟩] (some "enough")) =
      (.error (.fault (.raised "enough")), ix₁) ∧
    ix₁ = { laden with mutex := ⟨false, true⟩ } ∧
    laden.task compare (.call (.op ⟨5, .lookup⟩)) = (.ok a, laden) ∧
    ix₁.tasks compare [.call (.op ⟨5, .erase⟩), .call (.op ⟨5, .lookup⟩)] =
      ([.error (.fault (.poisoned laden.name)), .ok a], ix₁) := by
  have hladen : laden.Arises compare := by
    refine .task (.start _) _ fun h => ?_
    have hanswered : halt? ((ofConfig ⟨"rbt", .coupled, true⟩ : Index ℕ ℕ).task compare
        (.call (.op ⟨5, .set 50⟩))).1 = none := by decide +kernel
    rw [h] at hanswered
    cases hanswered
  have hgiven : halt? (laden.task compare (.quiesce [.op ⟨5, .lookup⟩] (some "enough"))).1 =
      some (.fault (.raised "enough")) := by decide +kernel
  have hstrategy : laden.strategy = .coupled := by decide +kernel
  rcases hraised : laden.task compare (.quiesce [.op ⟨5, .lookup⟩] (some "enough")) with
    ⟨_ | h, ix₁⟩
  · rw [hraised] at hgiven
    obtain rfl := Option.some.inj hgiven
    obtain ⟨hmutex, -⟩ := tasks_of_raised hladen hraised
    obtain ⟨h₁, hopen, htasks⟩ := hmutex (by rw [hstrategy]; decide)
    rw [hstrategy] at hopen htasks
    obtain ⟨a, ha⟩ := hopen (.call (.op ⟨5, .lookup⟩)) (by decide)
    refine ⟨ix₁, a, rfl, h₁, ha, ?_⟩
    rw [htasks, List.map_cons, List.map_cons, ha]
    rfl
  · rw [hraised] at hgiven
    cases hgiven

end Index

end LatchTree
