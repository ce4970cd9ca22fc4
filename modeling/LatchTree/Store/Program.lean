import LatchTree.Store.Basic

/-!
Programs: what a thread asks of the store, one request at a time, and running one alone.
Latches are taken and let go by requests of their own, so that other threads may come between
any two of them; the writes under a lock set are one request.
-/

namespace LatchTree

/-- The nodes that a thread has closed to all others, in the order in which it took them. -/
abbrev LockSet := List (NodeId × Ref)

/-- The nodes of a lock set while they are edited. -/
abbrev Members (K V : Type) := List (NodeId × Node K V)

/-- Reads and writes on the nodes of a lock set. A fault keeps what was written before it. -/
abbrev Edit (K V : Type) := ExceptT Fault (StateM (Members K V))

/-- The writes made under one lock set. -/
structure Section (K V : Type) where
  /-- Answers with the value of an entry overwritten or erased. -/
  edit : Edit K V (Option V)
  /-- Whether an entry moves up the tree. -/
  relocates : Bool := false

inductive Request (K V : Type) where
  | resolve (id : NodeId)
  /-- Waits until the latch admits a reader. -/
  | read (r : Ref)
  /-- Gives up if the latch does not admit a reader. -/
  | tryRead (r : Ref)
  | leave (r : Ref)
  | reserve (r : Ref)
  | unreserve (r : Ref)
  /-- Closes the door, from outside. -/
  | latch (r : Ref)
  /-- Closes the door, holding the reservation. -/
  | upgrade (r : Ref)
  /-- Goes in through the door it closed, once the readers have left. -/
  | lock (r : Ref)
  | unlock (r : Ref)
  | commit (held : LockSet) (writes : Section K V)
  | alloc (n : Node K V)
  | free (id : NodeId)
  | relocations
  | countUp
  | countDown

/-- What a request is answered with; permissions to look at a node come with its content, which
stays as it is for as long as the permission is held. -/
def Request.Answer {K V : Type} : Request K V → Type
  | .resolve _ => Ref
  | .read _ => Node K V
  | .tryRead _ => Option (Node K V)
  | .reserve _ => Node K V
  | .commit _ _ => Option V
  | .alloc _ => NodeId
  | .relocations => UInt64
  | .leave _ | .unreserve _ | .latch _ | .upgrade _ | .lock _ | .unlock _ | .free _
  | .countUp | .countDown => Unit

/-- A permission that a thread holds on a node. -/
inductive Hold where
  | reading (r : Ref)
  | reserving (r : Ref)
  /-- From the moment the door is closed. -/
  | writing (r : Ref)
  deriving DecidableEq, Repr

namespace Store

variable {K V : Type}

/-- Lets go of one permission. -/
def letGo (s : Store K V) : Hold → Store K V
  | .reading r => s.mapWord r .leave
  | .reserving r => s.mapWord r .unreserve
  | .writing r => s.mapWord r fun _ => .free

/-- An abandoned operation lets go of all it holds. -/
def unwind (s : Store K V) (held : List Hold) : Store K V :=
  held.foldl letGo s

def members (s : Store K V) (ls : LockSet) : Members K V :=
  ls.map fun (id, r) => (id, s.node r)

/-- Writes edited nodes back. -/
def putMembers (s : Store K V) (ls : LockSet) (ms : Members K V) : Store K V :=
  (ls.zip ms).foldl (fun s ((_, r), (_, n)) => s.mapNode r fun _ => n) s

def commit (s : Store K V) (ls : LockSet) (writes : Section K V) :
    Except Fault (Option V) × Store K V :=
  let (result, ms) := writes.edit.run.run (s.members ls)
  let s := s.putMembers ls ms
  match result with
  | .ok v => (.ok v, if writes.relocates then { s with relocations := s.relocations + 1 } else s)
  | .error f => (.error f, s)

end Store

namespace Request

variable {K V : Type}

/-- Whether the request can be served at once. -/
def enabled (s : Store K V) : Request K V → Bool
  | .resolve _ => s.table.admitsReader
  | .read r => (s.word r).admitsReader
  | .reserve r => (s.word r).admitsReserver
  | .latch r => (s.word r).admitsWriter
  | .lock r => (s.word r).isDrained
  | .alloc _ | .free _ => s.table.admitsWriter && s.table.isDrained
  | .tryRead _ | .leave _ | .unreserve _ | .upgrade _ | .unlock _ | .commit _ _ | .relocations
  | .countUp | .countDown => true

/-- Serves an enabled request. -/
def serve (s : Store K V) : (q : Request K V) → Except Fault q.Answer × Store K V
  | .resolve id => s.get id
  | .read r => (.ok (s.node r), s.mapWord r .enter)
  | .tryRead r =>
    if (s.word r).admitsReader then (.ok (some (s.node r)), s.mapWord r .enter)
    else (.ok none, s)
  | .leave r => (.ok (), s.letGo (.reading r))
  | .reserve r => (.ok (s.node r), s.mapWord r .reserve)
  | .unreserve r => (.ok (), s.letGo (.reserving r))
  | .latch r => (.ok (), s.mapWord r .latch)
  | .upgrade r => (.ok (), s.mapWord r .latch)
  | .lock r => (.ok (), s.mapWord r .lock)
  | .unlock r => (.ok (), s.letGo (.writing r))
  | .commit ls writes => s.commit ls writes
  | .alloc n =>
    let (id, s) := s.alloc n
    (.ok id, s)
  | .free id =>
    let (result, s) := s.free id
    (result.map fun _ => (), s)
  | .relocations => (.ok s.relocations, s)
  | .countUp => (.ok (), { s with entries := s.entries + 1 })
  | .countDown => (.ok (), { s with entries := s.entries - 1 })

/-- What the thread holds after the answer. -/
def held (hs : List Hold) : (q : Request K V) → q.Answer → List Hold
  | .read r, _ => .reading r :: hs
  | .tryRead r, some _ => .reading r :: hs
  | .tryRead _, none => hs
  | .leave r, _ => hs.erase (.reading r)
  | .reserve r, _ => .reserving r :: hs
  | .unreserve r, _ => hs.erase (.reserving r)
  | .latch r, _ => .writing r :: hs
  | .upgrade r, _ => .writing r :: hs.erase (.reserving r)
  | .unlock r, _ => hs.erase (.writing r)
  | .resolve _, _ | .lock _, _ | .commit _ _, _ | .alloc _, _ | .free _, _ | .relocations, _
  | .countUp, _ | .countDown, _ => hs

end Request

/-- What a thread still has to do: a finite tree of requests that branches on their answers. -/
inductive Program (K V α : Type) where
  | done (a : α)
  | halt (h : Halt)
  | ask (q : Request K V) (next : q.Answer → Program K V α)

namespace Program

variable {K V α β : Type}

protected def bind : Program K V α → (α → Program K V β) → Program K V β
  | .done a, f => f a
  | .halt h, _ => .halt h
  | .ask q next, f => .ask q fun a => (next a).bind f

instance : Monad (Program K V) where
  pure := .done
  bind := Program.bind

def request (q : Request K V) : Program K V q.Answer :=
  .ask q .done

def fault (f : Fault) : Program K V α :=
  .halt (.fault f)

@[simp] theorem pure_eq (a : α) : (pure a : Program K V α) = .done a := rfl

@[simp] theorem done_bind (a : α) (f : α → Program K V β) : (Program.done a >>= f) = f a := rfl

@[simp] theorem halt_bind (h : Halt) (f : α → Program K V β) :
    ((.halt h : Program K V α) >>= f) = .halt h := rfl

@[simp] theorem ask_bind (q : Request K V) (next : q.Answer → Program K V α)
    (f : α → Program K V β) : (Program.ask q next >>= f) = .ask q fun a => next a >>= f := rfl

instance : LawfulMonad (Program K V) := by
  refine LawfulMonad.mk' _ ?_ (fun _ _ => rfl) ?_
  · intro α x
    change x.bind _ = x
    induction x with
    | done a => rfl
    | halt h => rfl
    | ask q next ih => simp only [Program.bind]; congr; funext a; exact ih a
  · intro α β γ x f g
    change (x.bind f).bind g = x.bind fun a => (f a).bind g
    induction x with
    | done a => rfl
    | halt h => rfl
    | ask q next ih => simp only [Program.bind]; congr; funext a; exact ih a

/-- Runs a program with no other thread about, from the permissions `hs` that it holds. A request
that cannot be served at once never will be. -/
def run (s : Store K V) (hs : List Hold) : Program K V α → Except Halt α × Store K V
  | .done a => (.ok a, s)
  | .halt h => (.error h, s.unwind hs)
  | .ask q next =>
    if q.enabled s then
      match q.serve s with
      | (.ok a, s) => run s (q.held hs a) (next a)
      | (.error f, s) => (.error (.fault f), s.unwind hs)
    else (.error .waiting, s)

end Program

end LatchTree
