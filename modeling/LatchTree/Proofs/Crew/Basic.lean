import LatchTree.Proofs.Exclusive
import LatchTree.Proofs.Granted

/-!
A crew: any number of hands over one store. Each takes a lock set, works on its members, lets them go
and takes the next one, or looks at two nodes at once. Request by request they go on in any order.
-/

namespace LatchTree

variable {K V M : Type}

/-- What is done with the members of a lock set, up to what its owner then has in mind. -/
inductive Work (K V M : Type) where
  | done (a : M)
  | get (id : NodeId) (next : Node K V → Work K V M)
  | modify (id : NodeId) (f : Node K V → Node K V) (next : Work K V M)

/-- What a hand does, given what it has in mind. -/
inductive Job (K V M : Type) where
  | finished
  | within (ids : List NodeId) (work : Work K V M)
  /-- A look at two nodes at once. -/
  | pair (r₁ r₂ : Ref) (next : Node K V → Node K V → M)

/-- Where a hand is when it has no request to make. -/
inductive Standing (K V M : Type) where
  | ready (a : M)
  | working (ls : LockSet) (work : Work K V M)

/-- A thread with the permissions that it holds. -/
structure Hand (K V M : Type) where
  todo : Program K V (Standing K V M)
  holds : List Hold := []

structure Crew (K V M : Type) where
  store : Store K V
  hands : List (Hand K V M)

/-! ## Steps -/

def Job.start : Job K V M → Option (Program K V (Standing K V M))
  | .finished => none
  | .within ids work => some do
    let ls ← LockSet.exclusive ids none
    return .working ls work
  | .pair r₁ r₂ next => some do
    let ns ← Program.lookPair r₁ r₂
    return .ready (next ns.1 ns.2)

namespace Hand

/-- A hand between jobs. -/
def ready (a : M) : Hand K V M where
  todo := .done (.ready a)

/-- A hand that meets a fault lets go of all it holds, and does nothing any more. -/
def abandon (s : Store K V) (h : Hand K V M) (f : Fault) : Store K V × Hand K V M :=
  (s.unwind h.holds, { todo := .halt (.fault f) })

/-- Makes one request, or reads or writes one member of the lock set. -/
def step (plan : M → Job K V M) (s : Store K V) (h : Hand K V M) : Option (Store K V × Hand K V M) :=
  match h.todo with
  | .done (.ready a) => (plan a).start.map fun p => (s, { h with todo := p })
  | .done (.working ls (.get id next)) =>
    match s.memberNode ls id with
    | .ok n => some (s, { h with todo := .done (.working ls (next n)) })
    | .error f => some (h.abandon s f)
  | .done (.working ls (.modify id f next)) =>
    match s.editMember ls id f with
    | (.ok _, s) => some (s, { h with todo := .done (.working ls next) })
    | (.error f, s) => some (h.abandon s f)
  | .done (.working ls (.done a)) => some (s, { h with
      todo := do
        LockSet.release ls
        return .ready a })
  | .ask q next =>
    if q.enabled s then
      match q.serve s with
      | (.ok a, s) => some (s, ⟨next a, q.held h.holds a⟩)
      | (.error f, s) => some (h.abandon s f)
    else none
  | .halt _ => none

/-- Steps of one hand with no other going on. -/
def Alone (plan : M → Job K V M) : Store K V × Hand K V M → Store K V × Hand K V M → Prop :=
  Relation.ReflTransGen fun x x' => x.2.step plan x.1 = some x'

/-- It has nothing left to do. -/
def Finished (plan : M → Job K V M) (h : Hand K V M) : Prop :=
  ∃ a, h.todo = .done (.ready a) ∧ plan a = .finished

end Hand

namespace Crew

/-- The `i`-th hand goes on. -/
def step (plan : M → Job K V M) (c : Crew K V M) (i : ℕ) : Option (Crew K V M) :=
  c.hands[i]?.bind fun h => (h.step plan c.store).map fun (s, h) => ⟨s, c.hands.set i h⟩

/-- How many permissions to read the node `r` are held. -/
def readers (c : Crew K V M) (r : Ref) : ℕ :=
  (c.hands.flatMap Hand.holds).count (.reading r)

/-- A crew after any steps from `c₀`. In no node there are more readers than its latch can count. -/
inductive Reached (plan : M → Job K V M) (c₀ : Crew K V M) : Crew K V M → Prop where
  | start : Reached plan c₀ c₀
  | step {c c' : Crew K V M} {i : ℕ} (h : Reached plan c₀ c) (hstep : c.step plan i = some c')
      (hroom : ∀ r, c'.readers r < Latch.Word.room) : Reached plan c₀ c'

/-- A crew after jobs from `c₀` that are done one after the other: each hand goes on alone from the
start of its job to the end. -/
inductive Serial (plan : M → Job K V M) (c₀ : Crew K V M) : Crew K V M → Prop where
  | start : Serial plan c₀ c₀
  | job {c : Crew K V M} {i : ℕ} {h h' : Hand K V M} {s' : Store K V} {a : M} (hc : Serial plan c₀ c)
      (hi : c.hands[i]? = some h) (hrun : Hand.Alone plan (c.store, h) (s', h'))
      (hdone : h'.todo = .done (.ready a)) : Serial plan c₀ ⟨s', c.hands.set i h'⟩

end Crew

/-! ## What a crew may be given to do -/

namespace Work

/-- Only the nodes of `ids` are touched. -/
def Within (ids : List NodeId) : Work K V M → Prop
  | .done _ => True
  | .get id next => id ∈ ids ∧ id ≠ .nil ∧ ∀ n, (next n).Within ids
  | .modify id _ next => id ∈ ids ∧ id ≠ .nil ∧ next.Within ids

end Work

/-- The nodes are there, and two of them where two are looked at. -/
def Job.Proper (s : Store K V) : Job K V M → Prop
  | .finished => True
  | .within ids work => (∀ id ∈ ids, id ≠ .nil → ∃ r, s.ref? id = some r) ∧ work.Within ids
  | .pair r₁ r₂ _ => r₁ ≠ r₂ ∧ r₁ < s.cells.size ∧ r₂ < s.cells.size

/-- No latch is held, and whatever a hand may have in mind can be done. -/
structure Store.Suits (plan : M → Job K V M) (s : Store K V) : Prop where
  slots : s.content.Sound
  unlatched : s.Unlatched
  proper : ∀ a, (plan a).Proper s

/-- Hands between jobs, with what they have in mind. -/
def Crew.ready (s : Store K V) (ms : List M) : Crew K V M where
  store := s
  hands := ms.map .ready

/-! ## What the work comes to -/

/-- The node in the slot `id`, if there is one. -/
def Store.refAt (s : Store K V) (id : NodeId) : Ref :=
  (s.ref? id).getD 0

theorem Store.Ranks.mem {s : Store K V} {ids : List NodeId} {ls : LockSet} (h : s.Ranks ids ls)
    {id : NodeId} (hid : id ∈ ids) (hne : id ≠ .nil) : (id, s.refAt id) ∈ ls := by
  obtain ⟨m, hm, rfl⟩ := List.mem_map.1 ((h.members id).2 ⟨hid, hne⟩)
  rw [refAt, h.refs m hm]
  exact hm

namespace Work

/-- What the owner has in mind in the end, and what the nodes are then like. -/
def eval (ref : NodeId → Ref) : Work K V M → (Ref → Node K V) → M × (Ref → Node K V)
  | .done a, x => (a, x)
  | .get id next, x => (next (x (ref id))).eval ref x
  | .modify id f next, x => next.eval ref (Function.update x (ref id) (f (x (ref id))))

variable {ids : List NodeId} {ref : NodeId → Ref} {w : Work K V M} {x x' : Ref → Node K V}

theorem eval_other (hw : w.Within ids) {r : Ref} (hr : ∀ id ∈ ids, id ≠ .nil → ref id ≠ r) :
    (w.eval ref x).2 r = x r := by
  induction w generalizing x with
  | done a => rfl
  | get id next ih => exact ih _ (hw.2.2 _)
  | modify id f next ih =>
    exact (ih hw.2.2).trans (Function.update_of_ne (hr id hw.1 hw.2.1).symm ..)

/-- The work depends on the nodes that it touches, and leaves the others as they are. -/
theorem eval_congr (hw : w.Within ids) (hx : ∀ id ∈ ids, id ≠ .nil → x' (ref id) = x (ref id)) :
    (w.eval ref x').1 = (w.eval ref x).1 ∧
      ∀ r, x' r = x r → (w.eval ref x').2 r = (w.eval ref x).2 r := by
  induction w generalizing x x' with
  | done a => exact ⟨rfl, fun _ h => h⟩
  | get id next ih =>
    rw [eval, eval, hx id hw.1 hw.2.1]
    exact ih _ (hw.2.2 _) hx
  | modify id f next ih =>
    have hsame : ∀ r, x' r = x r →
        Function.update x' (ref id) (f (x' (ref id))) r =
          Function.update x (ref id) (f (x (ref id))) r := by
      intro r hr
      rw [hx id hw.1 hw.2.1]
      by_cases he : r = ref id
      · rw [he, Function.update_self, Function.update_self]
      · rw [Function.update_of_ne he, Function.update_of_ne he, hr]
    obtain ⟨hmind, hnodes⟩ := ih hw.2.2 fun i hi hne => hsame _ (hx i hi hne)
    exact ⟨hmind, fun r hr => hnodes r (hsame r hr)⟩

end Work

/-- What is in mind after a job, and what the nodes are then like. -/
def Job.eval (ref : NodeId → Ref) (m : M) (y : Ref → Node K V) : Job K V M → M × (Ref → Node K V)
  | .finished => (m, y)
  | .within _ w => w.eval ref y
  | .pair r₁ r₂ next => (next (y r₁) (y r₂), y)

end LatchTree
