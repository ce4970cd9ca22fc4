import LatchTree.Toml.Document
import LatchTree.Decimal.Shortest

/-!
Profiles of the load generator: how many keys, operations and threads.
-/

namespace LatchTree.Perf

structure Profile where
  spin : Bool := false
  keyRange : UInt64 := 100000
  initial : UInt64 := 10000
  readers : UInt64 := 1
  writers : UInt64 := 4
  operations : UInt64 := 100000
  /-- The bits of a double: the share of insertions in the operations of a writer. -/
  insertRatio : UInt64 := 0x3FD3333333333333
  /-- Seconds that a writer may take. -/
  duration : UInt64 := 30
  /-- Milliseconds between checks of the tree. -/
  interval : UInt64 := 500
  deriving DecidableEq, Repr

inductive ProfileError where
  | unreadable
  | malformed
  | emptyKeyRange
  | ratioOutOfRange (bits : UInt64)
  deriving DecidableEq, Repr

namespace Profile

/-- An entry of another type is passed over. -/
def boolean (es : Toml.Entries) (key : String) (default : Bool) : Bool :=
  match es.find? key with
  | some (.boolean b) => b
  | _ => default

/-- Negative numbers count down from `2 ^ 64`. -/
def word (es : Toml.Entries) (key : String) (default : UInt64) : UInt64 :=
  match es.find? key with
  | some (.integer n) => UInt64.ofInt n
  | _ => default

def float (es : Toml.Entries) (key : String) (default : UInt64) : UInt64 :=
  match es.find? key with
  | some (.float bits) => bits
  | _ => default

def ofEntries (es : Toml.Entries) : Profile :=
  let base : Profile := {}
  { spin := boolean es "spin" base.spin
    keyRange := word es "key_range" base.keyRange
    initial := word es "initial" base.initial
    readers := word es "readers" base.readers
    writers := word es "writers" base.writers
    operations := word es "ops" base.operations
    insertRatio := float es "insert_ratio" base.insertRatio
    duration := word es "duration" base.duration
    interval := word es "validate_interval" base.interval }

def check (p : Profile) : Except ProfileError Profile :=
  let ratio := Float.ofBits p.insertRatio
  if p.keyRange = 0 then .error .emptyKeyRange
  else if 0.0 ≤ ratio ∧ ratio ≤ 1.0 then .ok p
  else .error (.ratioOutOfRange p.insertRatio)

/-- Reads a profile; what it does not say keeps its default. -/
def ofText (text : String) : Except ProfileError Profile :=
  match Toml.read? text with
  | some es => (ofEntries es).check
  | none => .error .malformed

/-- Reads a profile from a file, which has to be text. -/
def ofBytes (bytes : ByteArray) : Except ProfileError Profile :=
  match String.fromUTF8? bytes with
  | some text => ofText text
  | none => .error .malformed

end Profile

end LatchTree.Perf
