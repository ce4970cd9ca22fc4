import LatchTree.Index
import LatchTree.Key
import LatchTree.Random
import LatchTree.Perf.Options
import LatchTree.Perf.Profile

/-!
The load generator: fills an index with random entries, lets writers insert and erase at random,
checks the tree, and reports. It runs on one thread, and what depends on the clock or on readers
is left open in the report.
-/

namespace LatchTree.Perf

/-- An index under load. -/
abbrev Loaded := Index Int Int

/-- A line of the report. -/
inductive Line where
  | loaded (strategy : Strategy) (count : UInt64)
  | writer (number inserts erases : Nat)
  | summary (strategy : Strategy) (writes : Nat)
  | verified (count : UInt64)
  | text (line : String)
  | failure (kind : ErrorKind) (message : Option String)

def Line.render : Line → String
  | loaded strategy count => s!"rbt-perf: {strategy.name} loaded {count} items in _"
  | writer number inserts erases =>
    s!"rbt-perf: writer-{number} for (inserts:{inserts} erases:{erases}) operations took _"
  | summary strategy writes =>
    s!"rbt-perf: {strategy.name} writes:{writes} (_/s) reads:_ (_/s) validates:_ took _"
  | verified count => s!"rbt-perf: verifying {count} items in index ... ok"
  | text line => line
  | failure kind message =>
    let text := message.getD "_"
    s!"rbt-perf: error {kind.name}: {text}"

namespace ProfileError

def kind : ProfileError → ErrorKind
  | .unreadable => .ioError
  | _ => .invalidInput

/-- The text of the error; those that stem from reading the file have none. -/
def message? : ProfileError → Option String
  | .unreadable | .malformed => none
  | .emptyKeyRange => some "key_range must be non-zero"
  | .ratioOutOfRange bits =>
    some s!"insert_ratio {(Decimal.Double.ofBits bits).render} not in 0..1"

end ProfileError

/-- A random key and the generator after it. -/
def drawKey (p : Profile) (r : Random) : Int × Random :=
  let (n, r) := r.next
  ((n % p.keyRange).toNat, r)

/-- Inserts random entries. -/
def fill (p : Profile) : Nat → Random → Loaded → Loaded
  | 0, _, ix => ix
  | count + 1, r, ix =>
    let (k, r) := drawKey p r
    let (v, r) := r.next
    fill p count r (ix.insert Key.byNumber k v.toNat).2

/-- What a writer has done. -/
structure Work where
  inserts : Nat := 0
  erases : Nat := 0

/-- Inserts or erases random keys. -/
def work (p : Profile) : Nat → Random → Work → Loaded → Work × Loaded
  | 0, _, w, ix => (w, ix)
  | count + 1, r, w, ix =>
    let (k, r) := drawKey p r
    let (share, r) := r.nextFloat
    if share < Float.ofBits p.insertRatio then
      let (v, r) := r.next
      work p count r { w with inserts := w.inserts + 1 } (ix.insert Key.byNumber k v.toNat).2
    else
      work p count r { w with erases := w.erases + 1 } (ix.erase Key.byNumber k).2

/-- Runs the writers from number `j` on. -/
def runWriters (p : Profile) (seed : UInt64) : Nat → Nat → Loaded → List Line × Nat × Loaded
  | 0, _, ix => ([], 0, ix)
  | count + 1, j, ix =>
    let operations := if p.duration = 0 then 0 else p.operations.toNat
    let r := Random.ofSeed (seed + UInt64.ofNat j * 100)
    let (w, ix) := work p operations r {} ix
    let (lines, writes, ix) := runWriters p seed count (j + 1) ix
    (.writer j w.inserts w.erases :: lines, w.inserts + w.erases + writes, ix)

/-- The lines of a report of statistics, and the empty line after it. -/
def reportLines (s : Stats) : List Line :=
  (s.render.splitOn "\n").map .text

/-- Loads an index and checks it. -/
def runStrategy (p : Profile) (seed : UInt64) (strategy : Strategy) : Except Error (List Line) :=
  let ix : Loaded := .ofConfig { name := "rbt-perf", strategy := strategy, spin := p.spin }
  let ix := fill p p.initial.toNat (Random.ofSeed seed) ix
  let loaded := Line.loaded strategy ix.len
  let (lines, writes, ix) := runWriters p seed p.writers.toNat 0 ix
  match ix.verify Key.byNumber with
  | (.ok (.ok stats), ix) =>
    .ok (loaded :: lines ++ [.summary strategy writes, .verified ix.len] ++ reportLines stats)
  | (.ok (.error v), _) => .error ⟨.fatal, "", v.message toString⟩
  | (.error _, _) => .error ⟨.threadFail, "", "writer panic"⟩

/-- The exit code and what is printed. -/
structure Outcome where
  code : UInt32
  lines : List Line

def runAll (p : Profile) (seed : UInt64) : List Strategy → Outcome
  | [] => ⟨0, []⟩
  | s :: rest =>
    match runStrategy p seed s with
    | .ok lines =>
      let o := runAll p seed rest
      ⟨o.code, lines ++ o.lines⟩
    | .error e => ⟨1, [.failure e.kind (some e.message)]⟩

/-- Reads the profile that the options name, by way of `read`. -/
def profileOf (o : Options) (read : String → Option ByteArray) : Except ProfileError Profile :=
  match o.path? with
  | none => Profile.ofText ""
  | some path =>
    match read path with
    | some bytes => Profile.ofBytes bytes
    | none => .error .unreadable

/-- The whole command. `fallback` is the seed if none is given, or zero. -/
def command (args : List String) (fallback : UInt64) (read : String → Option ByteArray) : Outcome :=
  match Options.parse? {} args with
  | none => ⟨1, []⟩
  | some o =>
    let seed := o.seed.getD 0
    match profileOf o read with
    | .error e => ⟨1, [.failure e.kind e.message?]⟩
    | .ok p => runAll p (if seed = 0 then fallback else seed) o.strategies

end LatchTree.Perf
