import LatchTree.Config
import LatchTree.Depth
import LatchTree.Latch.Stats

/-!
Statistics of an index.
-/

namespace LatchTree

structure Stats where
  name : String
  strategy : Strategy
  spin : Bool
  /-- The size of a node in memory, if it is known. -/
  nodeSize : Option UInt64 := some 0
  count : UInt64 := 0
  slots : UInt64 := 0
  latch : Latch.Stats := {}
  table : Latch.Stats := {}
  blacks : Option UInt64 := none
  depths : Option Depth := none

namespace Stats

/-- The five lines of a report; a size that is not known is left open. -/
def render (s : Stats) : String :=
  let size := (s.nodeSize.map toString).getD "_"
  let blacks := (s.blacks.map toString).getD "none"
  let depths := (s.depths.map Depth.render).getD "none"
  s!"rbt.name = {s.name}\n" ++
    s!"rbt = \x7b strategy={s.strategy.name}, spin={s.spin}, n_count={s.count}, " ++
    s!"n_slots={s.slots} node_size={size}, blacks={blacks} \x7d\n" ++
    s!"rbt.latch_stats = {s.latch.render}\n" ++
    s!"rbt.arena_stats = {s.table.render}\n" ++
    s!"rbt.depths = {depths}\n"

end Stats

end LatchTree
