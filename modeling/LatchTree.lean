import LatchTree.Latch.Room
import LatchTree.Perf.Load
import LatchTree.Main
import LatchTree.Proofs.Heap
import LatchTree.Proofs.Latch.Census
import LatchTree.Proofs.Edit
import LatchTree.Proofs.Turn
import LatchTree.Proofs.Move
import LatchTree.Proofs.Content
import LatchTree.Proofs.Grip
import LatchTree.Proofs.Ensures
import LatchTree.Proofs.Sections
import LatchTree.Proofs.RedBlack
import LatchTree.Proofs.FixUp.Alter
import LatchTree.Proofs.FixUp.Insert
import LatchTree.Proofs.FixUp.Delete
import LatchTree.Proofs.Writer.Seek
import LatchTree.Proofs.Writer.Set
import LatchTree.Proofs.Writer.Remove
import LatchTree.Proofs.Entries
import LatchTree.Proofs.Lookup.Phases
import LatchTree.Proofs.Check.Walk
import LatchTree.Proofs.Lookup.Alone
import LatchTree.Proofs.Calls
import LatchTree.Proofs.System.Basic
import LatchTree.Proofs.System.Track
import LatchTree.Proofs.System.Schedule
import LatchTree.Proofs.System.Coupled
import LatchTree.Proofs.System.Stray
import LatchTree.Proofs.Crowd.Found
import LatchTree.Proofs.Crowd.Live
import LatchTree.Proofs.Trace
import LatchTree.Proofs.Latch.Stakes
import LatchTree.Proofs.Latch.Traffic
import LatchTree.Proofs.Latch.Workshop
import LatchTree.Proofs.Latch.Counted
import LatchTree.Proofs.Check.Shallow
import LatchTree.Proofs.Slots
import LatchTree.Proofs.Handles
import LatchTree.Proofs.Exclusive
import LatchTree.Proofs.Index.Strands
import LatchTree.Proofs.Check.Total
import LatchTree.Proofs.Index.Calls
import LatchTree.Proofs.Abides
import LatchTree.Proofs.Granted
import LatchTree.Proofs.Writer.Keys
import LatchTree.Proofs.Frame
import LatchTree.Proofs.Lookup.Descent
import LatchTree.Proofs.Lookup.Firm
import LatchTree.Proofs.System.Restart
import LatchTree.Proofs.Index.Poisoned
import LatchTree.Proofs.Crew.Orderly
import LatchTree.Proofs.FixUp.Alone
import LatchTree.Proofs.Rotation
import LatchTree.Proofs.Depth
