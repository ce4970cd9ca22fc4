import LatchTree.Proofs.Calls
import LatchTree.Proofs.Check.Total
import LatchTree.Index

/-!
Calls on an index, one after the other. Its strategy tells which permits are taken and which of the two
searches is made; it makes no difference to the answers and to the tree, whatever the comparison of keys
says.
-/

namespace LatchTree

variable {K V α : Type} {cmp : K → K → Ordering} {t : Shape K V} {s s' : Store K V}

theorem Store.UnlatchedTree.validate (hs : s.UnlatchedTree t) (cmp : K → K → Ordering) :
    ∃ res, ∀ b, (s.withSpin b).validate cmp = (.ok res, s.withSpin b) := by
  obtain ⟨res, hres⟩ := hs.check cmp s.len.toNat
  exact ⟨res, fun b => ((Tree.check cmp s.len.toNat).run.run_withSpin s b []).trans (by
    rw [show (Tree.check cmp s.len.toNat).run.run s [] = _ from hres])⟩

theorem Store.UnlatchedTree.withSpin (hs : s.UnlatchedTree t) (b : Bool) :
    (s.withSpin b).UnlatchedTree t :=
  ⟨hs.settled, hs.shows.withSpin b⟩

namespace Index

/-! ## Calls -/

/-- What is done with a key. -/
inductive Act (V : Type) where
  | set (v : V)
  | insert (v : V)
  | remove
  | erase
  | lookup
  deriving DecidableEq, Repr

structure Op (K V : Type) where
  key : K
  act : Act V
  deriving DecidableEq, Repr

/-- What may be asked of an index. -/
inductive Call (K V : Type) where
  | op (o : Op K V)
  | len
  | validate
  | verify

inductive Reply (K V : Type) where
  | done
  | value (v : Option V)
  | found (b : Bool)
  | length (n : UInt64)
  | valid (b : Bool)
  | verified (r : Except (Violation K) Stats)

def op (cmp : K → K → Ordering) (ix : Index K V) (o : Op K V) :
    Except Halt (Reply K V) × Index K V :=
  match o.act with
  | .set v => (ix.set cmp o.key v).map (·.map .value) id
  | .insert v => (ix.insert cmp o.key v).map (·.map fun _ => .done) id
  | .remove => (ix.remove cmp o.key).map (·.map .value) id
  | .erase => (ix.erase cmp o.key).map (·.map .found) id
  | .lookup => (ix.lookup cmp o.key).map (·.map .value) id

def call (cmp : K → K → Ordering) (ix : Index K V) :
    Call K V → Except Halt (Reply K V) × Index K V
  | .op o => ix.op cmp o
  | .len => (.ok (.length ix.len), ix)
  | .validate => (ix.validate cmp).map (·.map .valid) id
  | .verify => (ix.verify cmp).map (·.map .verified) id

/-- Makes calls in order, up to the first that fails. -/
def calls (cmp : K → K → Ordering) :
    Index K V → List (Call K V) → Except Halt (List (Reply K V)) × Index K V
  | ix, [] => (.ok [], ix)
  | ix, c :: cs =>
    match ix.call cmp c with
    | (.ok r, ix) => (calls cmp ix cs).map (·.map (r :: ·)) id
    | (.error h, ix) => (.error h, ix)

/-- The change of the entries, if the operation makes one. -/
def Op.update? (o : Op K V) : Option (Update K V) :=
  match o.act with
  | .set v | .insert v => some (.set o.key v)
  | .remove | .erase => some (.remove o.key)
  | .lookup => none

/-- What is answered if `v` is what was there. -/
def Op.reply (o : Op K V) (v : Option V) : Reply K V :=
  match o.act with
  | .set _ | .remove | .lookup => .value v
  | .insert _ => .done
  | .erase => .found v.isSome

/-! ## Permits -/

/-- No permit is held. -/
structure Idle (ix : Index K V) : Prop where
  locked : ix.mutex.locked = false
  latch : ix.latch = .free

namespace Idle

variable {ix : Index K V}

/-- A permit is to be had, and is given back. -/
theorem under (hix : ix.Idle) (hm : ix.mutex.poisoned = false) (p : Permit)
    {body : Index K V → Except Halt α × Index K V} {P : α → Prop}
    (hbody : ∀ m w, ∃ a, P a ∧ body { ix with mutex := m, latch := w } =
      (.ok a, { ix with mutex := m, latch := w, store := s' })) :
    ∃ a, P a ∧ ix.under p body = (.ok a, { ix with store := s' }) := by
  obtain ⟨name, strategy, spin, ⟨locked, poisoned⟩, latch, s⟩ := ix
  obtain ⟨hlocked, hlatch⟩ := hix
  simp only at hlocked hlatch hm
  subst hlocked hlatch hm
  cases p with
  | mutex =>
    obtain ⟨a, ha, hrun⟩ := hbody ⟨true, false⟩ .free
    refine ⟨a, ha, ?_⟩
    simp [Index.under, acquire, hrun, release]
  | shared =>
    obtain ⟨a, ha, hrun⟩ := hbody ⟨false, false⟩ (Latch.Word.enter .free)
    refine ⟨a, ha, ?_⟩
    have hadmits : Latch.Word.free.admitsReader = true := by decide
    simp [Index.under, acquire, hadmits, hrun, release, Latch.Word.leave_enter]
  | exclusive =>
    obtain ⟨a, ha, hrun⟩ := hbody ⟨false, false⟩ (Latch.Word.latch .free).lock
    refine ⟨a, ha, ?_⟩
    have hadmits : (Latch.Word.free.admitsWriter && Latch.Word.free.isDrained) = true := by decide
    simp [Index.under, acquire, hadmits, hrun, release]

theorem under_onStore (hix : ix.Idle) (hm : ix.mutex.poisoned = false) (p : Permit)
    (f : Store K V → Except Halt α × Store K V) {a : α} (hf : f ix.store = (.ok a, s')) :
    ix.under p (fun ix => ix.onStore f) = (.ok a, { ix with store := s' }) := by
  have hunder : ∃ b, b = a ∧
      ix.under p (fun ix => ix.onStore f) = (.ok b, { ix with store := s' }) :=
    hix.under hm p fun m w => ⟨a, rfl, by simp only [onStore, hf]⟩
  obtain ⟨_, rfl, hrun⟩ := hunder
  exact hrun

theorem op_update (hix : ix.Idle) (hm : ix.mutex.poisoned = false) {o : Op K V} {u : Update K V}
    {old : Option V} (ho : o.update? = some u) (hrun : ix.store.update cmp u = (.ok old, s')) :
    ix.op cmp o = (.ok (o.reply old), { ix with store := s' }) := by
  obtain ⟨k, act⟩ := o
  cases act with
  | lookup => cases ho
  | set v =>
    obtain rfl := Option.some.inj ho
    have h : ix.set cmp k v = _ := hix.under_onStore hm _ (fun s => s.set cmp k v) hrun
    simp only [op, h]
    rfl
  | insert v =>
    obtain rfl := Option.some.inj ho
    have h : ix.set cmp k v = _ := hix.under_onStore hm _ (fun s => s.set cmp k v) hrun
    simp only [op, insert, h]
    rfl
  | remove =>
    obtain rfl := Option.some.inj ho
    have h : ix.remove cmp k = _ := hix.under_onStore hm _ (fun s => s.remove cmp k) hrun
    simp only [op, h]
    rfl
  | erase =>
    obtain rfl := Option.some.inj ho
    have h : ix.remove cmp k = _ := hix.under_onStore hm _ (fun s => s.remove cmp k) hrun
    simp only [op, erase, h]
    rfl

/-- Both searches find the same. -/
theorem op_lookup (hix : ix.Idle) (hm : ix.mutex.poisoned = false) (hs : ix.store.UnlatchedTree t)
    {o : Op K V} (ho : o.update? = none) : ix.op cmp o = (.ok (o.reply (t.found cmp o.key)), ix) := by
  obtain ⟨k, act⟩ := o
  cases act with
  | lookup =>
    have h : ix.lookup cmp k = (.ok (t.found cmp k), ix) := by
      unfold lookup
      cases ix.strategy.readPermit with
      | some p => exact hix.under_onStore hm p (fun s => s.find cmp k) (hs.find cmp k)
      | none => simp only [onStore, hs.findCoupled cmp k]
    simp only [op, h]
    rfl
  | _ => cases ho

end Idle

/-! ## The same calls under another strategy -/

/-- The index under another strategy, with threads that spin or not. -/
def recast (ix : Index K V) (σ : Strategy) (b : Bool) : Index K V :=
  { ix with strategy := σ, spin := b, store := ix.store.withSpin b }

end Index

/-- The fields that do not depend on the strategy and on what the caller itself holds. -/
def Stats.common (s : Stats) : Stats :=
  { s with strategy := .global, spin := false, latch := {} }

/-- The statistics, with what the check found. -/
def Stats.withReport (s : Stats) (report : Tree.Report) : Stats :=
  { s with
    blacks := some (UInt64.ofNat report.blacks)
    depths := some report.depths }

def Index.Reply.common : Index.Reply K V → Index.Reply K V
  | .verified r => .verified (r.map Stats.common)
  | r => r

namespace Index

variable {ix : Index K V}

theorem Idle.recast (hix : ix.Idle) (σ : Strategy) (b : Bool) : (ix.recast σ b).Idle :=
  ⟨hix.locked, hix.latch⟩

/-- The check of the tree, with writers held off. -/
theorem Idle.verify (hix : ix.Idle) (hm : ix.mutex.poisoned = false)
    {res : Except (Violation K) Tree.Report}
    (hres : ix.store.validate cmp = (.ok res, ix.store)) :
    ∃ r, r.map Stats.common = res.map ix.stats.common.withReport ∧ ix.verify cmp = (.ok r, ix) := by
  refine hix.under hm ix.strategy.quietPermit fun m w =>
    ⟨res.map { ix with mutex := m, latch := w }.stats.withReport, ?_, ?_⟩
  · cases res <;> rfl
  · simp only [onStore, hres]
    rfl

theorem Idle.op (hix : ix.Idle) (hm : ix.mutex.poisoned = false) (hs : ix.store.UnlatchedTree t)
    (cmp : K → K → Ordering) (o : Op K V) : ∃ r s' t', s'.UnlatchedTree t' ∧
      ∀ σ b, (ix.recast σ b).op cmp o = (.ok r, { ix with store := s' }.recast σ b) := by
  cases ho : o.update? with
  | none =>
    exact ⟨_, ix.store, t, hs, fun σ b => (hix.recast σ b).op_lookup hm (hs.withSpin b) ho⟩
  | some u =>
    obtain ⟨old, s', t', hrun, hs', -⟩ := hs.update cmp u
    refine ⟨o.reply old, s', t', hs', fun σ b => (hix.recast σ b).op_update hm ho ?_⟩
    exact ((u.program cmp ix.store.patience).run_withSpin ix.store b []).trans (by
      rw [show (u.program cmp ix.store.patience).run ix.store [] = _ from hrun])

theorem Idle.call (hix : ix.Idle) (hm : ix.mutex.poisoned = false) (hs : ix.store.UnlatchedTree t)
    (cmp : K → K → Ordering) (c : Call K V) : ∃ r s' t', s'.UnlatchedTree t' ∧
      ∀ σ b, ∃ r', r'.common = r ∧
        (ix.recast σ b).call cmp c = (.ok r', { ix with store := s' }.recast σ b) := by
  cases c with
  | op o =>
    obtain ⟨r, s', t', hs', hrun⟩ := hix.op hm hs cmp o
    exact ⟨r.common, s', t', hs', fun σ b => ⟨r, rfl, hrun σ b⟩⟩
  | len => exact ⟨.length ix.len, ix.store, t, hs, fun σ b => ⟨_, rfl, rfl⟩⟩
  | validate =>
    obtain ⟨res, hres⟩ := hs.validate cmp
    refine ⟨.valid res.isOk, ix.store, t, hs, fun σ b => ⟨.valid res.isOk, rfl, ?_⟩⟩
    have hrun : (ix.recast σ b).store.validate cmp = (.ok res, (ix.recast σ b).store) := hres b
    simp only [Index.call, validate, onStore, hrun]
    rfl
  | verify =>
    obtain ⟨res, hres⟩ := hs.validate cmp
    refine ⟨.verified (res.map ix.stats.common.withReport), ix.store, t, hs, fun σ b => ?_⟩
    obtain ⟨r, hr, hrun⟩ := (hix.recast σ b).verify hm (hres b)
    exact ⟨.verified r, congrArg Reply.verified hr, by simp only [Index.call, hrun]; rfl⟩

theorem Idle.calls (hix : ix.Idle) (hm : ix.mutex.poisoned = false) (hs : ix.store.UnlatchedTree t)
    (cmp : K → K → Ordering) (cs : List (Call K V)) :
    ∃ rs s' t', rs.length = cs.length ∧ s'.UnlatchedTree t' ∧ ∀ σ b, ∃ rs', rs'.map Reply.common = rs ∧
        (ix.recast σ b).calls cmp cs = (.ok rs', { ix with store := s' }.recast σ b) := by
  induction cs generalizing ix t with
  | nil => exact ⟨[], ix.store, t, rfl, hs, fun σ b => ⟨[], rfl, rfl⟩⟩
  | cons c cs ih =>
    obtain ⟨r, s₁, t₁, hs₁, hc⟩ := hix.call hm hs cmp c
    have hix₁ : Idle { ix with store := s₁ } := ⟨hix.locked, hix.latch⟩
    obtain ⟨rs, s₂, t₂, hlen, hs₂, hcs⟩ := ih hix₁ hm hs₁
    refine ⟨r :: rs, s₂, t₂, congrArg Nat.succ hlen, hs₂, fun σ b => ?_⟩
    obtain ⟨r', hr, hrun⟩ := hc σ b
    obtain ⟨rs', hrs, hruns⟩ := hcs σ b
    refine ⟨r' :: rs', by rw [List.map_cons, hr, hrs], ?_⟩
    rw [Index.calls, hrun]
    simp only [hruns]
    rfl

/-- Whatever the comparison of keys says, calls on a new index answer the same under all strategies, and
leave the same store but for the flag that tells whether threads spin. No permit is held afterwards, and
no mutex is poisoned. -/
theorem calls_alike (cmp : K → K → Ordering) (name : String) (cs : List (Call K V)) :
    ∃ (rs : List (Reply K V)) (s : Store K V), rs.length = cs.length ∧
      s.table = .free ∧ (∀ r, s.word r = .free) ∧
      ∀ σ b, ∃ rs' ix', (Index.ofConfig ⟨name, σ, b⟩).calls cmp cs = (.ok rs', ix') ∧
        rs'.map Reply.common = rs ∧ ix'.store = { s with spin := b } ∧
        ix'.mutex = ⟨false, false⟩ ∧ ix'.latch = .free := by
  let ix : Index K V := .ofConfig ⟨name, .global, false⟩
  have hix : ix.Idle := ⟨rfl, rfl⟩
  obtain ⟨rs, s, t, hlen, hs, hrun⟩ := hix.calls rfl (.empty false) cmp cs
  refine ⟨rs, s, hlen, hs.shows.table,
    fun r => (hs.shows.word r).trans Latch.Word.free_eq_compose.symm, fun σ b => ?_⟩
  obtain ⟨rs', hrs', hrun⟩ := hrun σ b
  exact ⟨rs', _, hrun, hrs', rfl, rfl, rfl⟩

end Index

end LatchTree
