import Interpose.Graph.Edit
import Interpose.Graph.Flow

/-!
# Removing blocks that cannot be reached

The reachable blocks keep their order and get new numbers without gaps. Variables keep theirs: those
of a removed block become deleted, and the counter stays.
-/

set_option autoImplicit false

namespace Interpose

namespace Graph

/-- The branch with its target renumbered by the position of the old number in `live`. A reachable
block goes to reachable blocks only, so every target of a kept block has a new number. -/
def retarget (live : List BlockId) (br : Branch) : Branch :=
  match br.target with
  | .block t =>
    match live.findIdx? (· == t) with
    | some i => { br with target := .block ⟨i⟩ }
    | none => br
  | .leave => br

/-- The graph without the blocks that cannot be reached, and how many there were. -/
def prune (g : Graph) : Graph × Nat :=
  let live := g.reachable
  let removed := g.blocks.size - live.length
  if removed = 0 then (g, 0)
  else
    let kept := (live.filterMap g.block?).map fun b =>
      { b with branches := b.branches.map (retarget live) }
    ({ g with blocks := kept.toArray }.renumbered, removed)

end Graph

end Interpose
