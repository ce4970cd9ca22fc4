import LatchTree.Proofs.Index.Calls

/-!
The indexes that operations lead to: between two operations no permit is held and the tree is settled.
As long as the mutex is not poisoned, an index answers as a list of entries in ascending order does;
from then on, what needs the mutex is refused and changes nothing.
-/

namespace LatchTree

variable {K V : Type} {cmp : K → K → Ordering}

/-! ## As a map -/

namespace Entries

variable {m : Entries K V}

/-- What an index replies that reads as `m`, and what it reads as afterwards. -/
def op (cmp : K → K → Ordering) (m : Entries K V) (o : Index.Op K V) :
    Index.Reply K V × Entries K V :=
  (o.reply (m.get cmp o.key), match o.update? with
    | some u => (m.update cmp u).2
    | none => m)

def ops (cmp : K → K → Ordering) :
    Entries K V → List (Index.Op K V) → List (Index.Reply K V) × Entries K V
  | m, [] => ([], m)
  | m, o :: os => (ops cmp (m.op cmp o).2 os).map ((m.op cmp o).1 :: ·) id

theorem length_ops (cmp : K → K → Ordering) (m : Entries K V) (os : List (Index.Op K V)) :
    (m.ops cmp os).1.length = os.length := by
  induction os generalizing m with
  | nil => rfl
  | cons o os ih => exact congrArg Nat.succ (ih _)

end Entries

namespace Index

variable {ix : Index K V} {t : Shape K V} {m : Entries K V}

theorem Op.update_value {o : Op K V} {u : Update K V} (ho : o.update? = some u)
    (cmp : K → K → Ordering) (m : Entries K V) : (m.update cmp u).1 = m.get cmp o.key := by
  obtain ⟨k, act⟩ := o
  cases act with
  | lookup => cases ho
  | _ => cases ho; rfl

theorem Idle.op_reads [Std.TransCmp cmp] (hix : ix.Idle) (hm : ix.mutex.poisoned = false)
    (h : ix.store.Reads cmp t m) (o : Op K V) : ∃ s' t',
      ix.op cmp o = (.ok (m.op cmp o).1, { ix with store := s' }) ∧
      s'.Reads cmp t' (m.op cmp o).2 := by
  cases ho : o.update? with
  | none =>
    refine ⟨ix.store, t, ?_, by rwa [Entries.op, ho]⟩
    rw [hix.op_lookup hm h.unlatched ho, h.found]
    rfl
  | some u =>
    obtain ⟨s', t', hrun, hs'⟩ := h.update u
    refine ⟨s', t', ?_, by rwa [Entries.op, ho]⟩
    rw [hix.op_update hm ho hrun, Op.update_value ho]
    rfl

theorem Idle.ops_reads [Std.TransCmp cmp] (hix : ix.Idle) (hm : ix.mutex.poisoned = false)
    (h : ix.store.Reads cmp t m) (os : List (Op K V)) : ∃ s' t',
      ix.calls cmp (os.map .op) = (.ok (m.ops cmp os).1, { ix with store := s' }) ∧
      s'.Reads cmp t' (m.ops cmp os).2 := by
  induction os generalizing ix t m with
  | nil => exact ⟨ix.store, t, rfl, h⟩
  | cons o os ih =>
    obtain ⟨s₁, t₁, hrun, h₁⟩ := hix.op_reads hm h o
    have hix₁ : Idle { ix with store := s₁ } := ⟨hix.locked, hix.latch⟩
    obtain ⟨s₂, t₂, hruns, h₂⟩ := ih hix₁ hm h₁
    refine ⟨s₂, t₂, ?_, h₂⟩
    rw [List.map_cons, Index.calls, show ix.call cmp (.op o) = _ from hrun]
    simp only [hruns]
    rfl

/-! ## Operations that lead to an index -/

/-- Between two operations, however many there were, also some that gave up. -/
inductive Reached (cmp : K → K → Ordering) : Index K V → Prop
  | start (c : Config) : Reached cmp (.ofConfig c)
  | call {ix : Index K V} (h : Reached cmp ix) (c : Call K V) : Reached cmp (ix.call cmp c).2
  | giveUp {ix : Index K V} (h : Reached cmp ix) (message : String) :
      Reached cmp (ix.giveUp message).2

/-- What can be said of every index that operations lead to, whatever the comparison of keys says. -/
structure Settled (ix : Index K V) : Prop where
  idle : ix.Idle
  unlatched : ∃ t, ix.store.UnlatchedTree t
  /-- The mutex is poisoned only if it is used. -/
  poisoned : ix.strategy = .readWrite → ix.mutex.poisoned = false

/-- What can be said of it if the comparison of keys is an order. -/
structure Orderly (cmp : K → K → Ordering) (ix : Index K V) : Prop where
  idle : ix.Idle
  reads : ∃ t m, ix.store.Reads cmp t m
  poisoned : ix.strategy = .readWrite → ix.mutex.poisoned = false

theorem Orderly.settled (h : ix.Orderly cmp) : ix.Settled :=
  ⟨h.idle, h.reads.imp fun _ ⟨_, hreads⟩ => hreads.unlatched, h.poisoned⟩

/-- The permit that a call needs, if any. -/
def Call.permit? (σ : Strategy) : Call K V → Option Permit
  | .op o => if o.update?.isSome then some σ.writePermit else σ.readPermit
  | .verify => some σ.quietPermit
  | .len | .validate => none

/-- The mutex is what all but one of the strategies use. -/
theorem Call.mutex_iff {σ : Strategy} {c : Call K V} {p : Permit} (hp : c.permit? σ = some p) :
    p = .mutex ↔ σ ≠ .readWrite := by
  cases c with
  | op o =>
    rw [permit?] at hp
    split_ifs at hp
    · obtain rfl := Option.some.inj hp
      cases σ <;> decide
    · cases σ with
      | coupled => cases hp
      | _ => obtain rfl := Option.some.inj hp; decide
  | len => cases hp
  | validate => cases hp
  | verify =>
    obtain rfl := Option.some.inj hp
    cases σ <;> decide

/-- Nothing is done for want of a permit. -/
theorem under_of_acquire {α : Type} {p : Permit} {e : Halt} (h : ix.acquire p = .error e)
    (body : Index K V → Except Halt α × Index K V) : ix.under p body = (.error e, ix) := by
  rw [under, h]

theorem call_of_acquire {c : Call K V} {p : Permit} {e : Halt} (cmp : K → K → Ordering)
    (hp : c.permit? ix.strategy = some p) (h : ix.acquire p = .error e) :
    ix.call cmp c = (.error e, ix) := by
  have hunder : ∀ {α : Type} (body : Index K V → Except Halt α × Index K V),
      ix.under p body = (.error e, ix) := under_of_acquire h
  cases c with
  | op o =>
    obtain ⟨k, act⟩ := o
    cases act with
    | set v | insert v | remove | erase =>
      obtain rfl := Option.some.inj hp
      simp only [Index.call, op, insert, erase, set, remove, hunder]
      rfl
    | lookup =>
      change ix.strategy.readPermit = some p at hp
      simp only [Index.call, op, lookup, hp, hunder]
      rfl
  | len => cases hp
  | validate => cases hp
  | verify =>
    obtain rfl := Option.some.inj hp
    simp only [Index.call, verify, hunder]
    rfl

theorem Idle.acquire_poisoned (hix : ix.Idle) (hm : ix.mutex.poisoned = true) :
    ix.acquire .mutex = .error (.fault (.poisoned ix.name)) := by
  simp [acquire, hix.locked, hm]

/-- What needs no permit is answered whatever permits are held, and changes nothing. -/
theorem call_open {t : Shape K V} (hs : ix.store.UnlatchedTree t) (cmp : K → K → Ordering)
    {c : Call K V} (hp : c.permit? ix.strategy = none) : ∃ r, ∀ m w,
      { ix with mutex := m, latch := w }.call cmp c = (.ok r, { ix with mutex := m, latch := w }) := by
  cases c with
  | op o =>
    obtain ⟨k, act⟩ := o
    cases act with
    | set v | insert v | remove | erase => cases hp
    | lookup =>
      change ix.strategy.readPermit = none at hp
      refine ⟨.value (t.found cmp k), fun m w => ?_⟩
      simp only [Index.call, op, lookup, hp, onStore, hs.findCoupled cmp k]
      rfl
  | len => exact ⟨.length ix.len, fun m w => rfl⟩
  | validate =>
    obtain ⟨res, hres⟩ := hs.validate cmp
    have hres : ix.store.validate cmp = (.ok res, ix.store) := hres ix.store.spin
    refine ⟨.valid res.isOk, fun m w => ?_⟩
    simp only [Index.call, Index.validate, onStore, hres]
    rfl
  | verify => cases hp

/-- Nothing that needs the mutex is done once it is poisoned. -/
theorem Settled.call_poisoned (h : ix.Settled) (hm : ix.mutex.poisoned = true)
    (cmp : K → K → Ordering) (c : Call K V) : (ix.call cmp c).2 = ix := by
  have hσ : ix.strategy ≠ .readWrite := fun hσ => by simp [h.poisoned hσ] at hm
  cases hp : c.permit? ix.strategy with
  | none =>
    obtain ⟨t, htree⟩ := h.unlatched
    obtain ⟨r, hr⟩ := call_open htree cmp hp
    rw [show ix.call cmp c = _ from hr ix.mutex ix.latch]
  | some p =>
    obtain rfl := (Call.mutex_iff hp).2 hσ
    rw [call_of_acquire cmp hp (h.idle.acquire_poisoned hm)]

/-- A call is answered, and changes the tree by one update at the most. -/
theorem Idle.call_made {t : Shape K V} (hix : ix.Idle) (hm : ix.mutex.poisoned = false)
    (hs : ix.store.UnlatchedTree t) (cmp : K → K → Ordering) (c : Call K V) : ∃ r s',
      ix.call cmp c = (.ok r, { ix with store := s' }) ∧
      (s' = ix.store ∨ ∃ u old, ix.store.update cmp u = (.ok old, s')) := by
  obtain ⟨res, hres⟩ := hs.validate cmp
  have hres : ix.store.validate cmp = (.ok res, ix.store) := hres ix.store.spin
  cases c with
  | op o =>
    cases ho : o.update? with
    | none => exact ⟨_, ix.store, hix.op_lookup hm hs ho, .inl rfl⟩
    | some u =>
      obtain ⟨old, s', t', hrun, -⟩ := hs.update cmp u
      exact ⟨_, s', hix.op_update hm ho hrun, .inr ⟨u, old, hrun⟩⟩
  | len => exact ⟨_, ix.store, rfl, .inl rfl⟩
  | validate =>
    refine ⟨.valid res.isOk, ix.store, ?_, .inl rfl⟩
    simp only [Index.call, Index.validate, onStore, hres]
    rfl
  | verify =>
    obtain ⟨r, -, hrun⟩ := hix.verify hm hres
    refine ⟨.verified r, ix.store, ?_, .inl rfl⟩
    simp only [Index.call, hrun]
    rfl

theorem Settled.call (h : ix.Settled) (cmp : K → K → Ordering) (c : Call K V) :
    (ix.call cmp c).2.Settled := by
  cases hm : ix.mutex.poisoned with
  | true => rwa [h.call_poisoned hm]
  | false =>
    obtain ⟨t, htree⟩ := h.unlatched
    obtain ⟨r, s', hrun, hmade⟩ := h.idle.call_made hm htree cmp c
    rw [hrun]
    refine ⟨⟨h.idle.locked, h.idle.latch⟩, ?_, h.poisoned⟩
    rcases hmade with rfl | ⟨u, old, hu⟩
    · exact h.unlatched
    · obtain ⟨_, _, t', hu', ht', -⟩ := htree.update cmp u
      obtain rfl := (Prod.mk.inj (hu.symm.trans hu')).2
      exact ⟨t', ht'⟩

theorem Orderly.call [Std.TransCmp cmp] (h : ix.Orderly cmp) (c : Call K V) :
    (ix.call cmp c).2.Orderly cmp := by
  have hsettled := h.settled.call cmp c
  refine ⟨hsettled.idle, ?_, hsettled.poisoned⟩
  cases hm : ix.mutex.poisoned with
  | true => rw [h.settled.call_poisoned hm]; exact h.reads
  | false =>
    obtain ⟨t, m, hreads⟩ := h.reads
    obtain ⟨r, s', hrun, hmade⟩ := h.idle.call_made hm hreads.unlatched cmp c
    rw [hrun]
    rcases hmade with rfl | ⟨u, old, hu⟩
    · exact h.reads
    · obtain ⟨_, t', hu', hreads'⟩ := hreads.update u
      obtain rfl := (Prod.mk.inj (hu.symm.trans hu')).2
      exact ⟨t', _, hreads'⟩

theorem Orderly.giveUp (h : ix.Orderly cmp) (message : String) :
    (ix.giveUp message).2.Orderly cmp := by
  obtain ⟨name, strategy, spin, ⟨locked, poisoned⟩, latch, s⟩ := ix
  obtain ⟨⟨hlocked, hlatch⟩, hreads, hpoisoned⟩ := h
  simp only at hlocked hlatch
  subst hlocked hlatch
  cases strategy with
  | global | coupled =>
    cases poisoned with
    | true => exact ⟨⟨rfl, rfl⟩, hreads, fun hσ => by cases hσ⟩
    | false => exact ⟨⟨rfl, rfl⟩, hreads, fun hσ => by cases hσ⟩
  | readWrite =>
    have hadmits : Latch.Word.free.admitsReader = true := by decide
    have hrun : (Index.giveUp ⟨name, .readWrite, spin, ⟨false, poisoned⟩, .free, s⟩ message).2 =
        ⟨name, .readWrite, spin, ⟨false, poisoned⟩, .free, s⟩ := by
      simp [Index.giveUp, Strategy.quietPermit, Index.under, acquire, hadmits, release,
        Latch.Word.leave_enter]
    rw [hrun]
    exact ⟨⟨rfl, rfl⟩, hreads, hpoisoned⟩

theorem Reached.orderly [Std.TransCmp cmp] (h : ix.Reached cmp) : ix.Orderly cmp := by
  induction h with
  | start c => exact ⟨⟨rfl, rfl⟩, ⟨_, _, .empty cmp c.spin⟩, fun _ => rfl⟩
  | call _ c ih => exact ih.call c
  | giveUp _ message ih => exact ih.giveUp message

end Index

end LatchTree
