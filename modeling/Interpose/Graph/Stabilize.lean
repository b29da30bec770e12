import Interpose.Graph.Flow
import Interpose.Table

/-!
# Dominators as sets that stabilize

The dominators once more, as they are found when the set of a block is written anew from the sets of
its predecessors, and not cut down from what it was. Predecessors are gathered branch by branch.
Then every reachable block but the entry gets what is held for all of its reachable predecessors,
and itself, round by round, until a round changes nothing.

Two things are left open here. A set is gone through in some order, which nobody promises and which
need not be the same twice. And a loop that waits until nothing changes might wait forever, so its
rounds are counted: the answer is missing if those that are allowed do not suffice, as it is when an
entry is looked up that is not there.
-/

set_option autoImplicit false

namespace Interpose

/-- A set of blocks with one more, both in ascending order. -/
def placeBlock (b : BlockId) : List BlockId → List BlockId
  | [] => [b]
  | c :: rest =>
    if b.index < c.index then b :: c :: rest
    else if b = c then c :: rest
    else c :: placeBlock b rest

/-- Sets of blocks, for some of the blocks. -/
abbrev BlockSets := Table BlockId (List BlockId)

/-- An order in which sets are gone through, for every round and every block that it is done for. -/
structure Itinerary where
  list : Nat → BlockId → List BlockId → List BlockId
  perm (round : Nat) (b : BlockId) (s : List BlockId) : (list round b s).Perm s

/-- Every set in ascending order. -/
def Itinerary.ascending : Itinerary := ⟨fun _ _ s => s, fun _ _ s => .refl s⟩

namespace BlockSets

/-- The table with `p` in the set of the block. -/
def join (t : BlockSets) (p b : BlockId) : BlockSets :=
  t.insert b (placeBlock p ((t.get? b).getD []))

/-- What is held for a block and was held for all blocks before it, if there were any. -/
def narrow (t : BlockSets) (held : Option (List BlockId)) (p : BlockId) :
    Option (Option (List BlockId)) := do
  let more ← t.get? p
  return some (held.elim more (·.filter more.contains))

/-- What is held for all of the blocks, none if there are no blocks. -/
def common (t : BlockSets) (ps : List BlockId) : Option (Option (List BlockId)) :=
  ps.foldlM t.narrow none

/-- Writes the set of the block anew, and says whether it has changed. -/
def renew (t : BlockSets) (b : BlockId) (ps : List BlockId) : Option (BlockSets × Bool) := do
  let common ← t.common ps
  let new := placeBlock b (common.getD [])
  let old ← t.get? b
  return if new = old then (t, false) else (t.insert b new, true)

end BlockSets

namespace Graph

/-- The predecessors of every block that exists or has a branch to it. -/
def gatherPredecessors (g : Graph) : BlockSets :=
  g.indexedBlocks.foldl (fun t (p, block) => block.targets.foldl (fun t b => t.join p b) t)
    ⟨g.blockIds.map fun b => (b, [])⟩

/-- Visits one block in a round: writes its set anew, and notes whether the round has changed a set
so far. -/
def visit (order : Itinerary) (live : List BlockId) (preds : BlockSets) (round : Nat)
    (t : BlockSets × Bool) (b : BlockId) : Option (BlockSets × Bool) := do
  let ps ← preds.get? b
  let (sets, changed) ← t.1.renew b ((order.list round b ps).filter live.contains)
  return (sets, t.2 || changed)

/-- One round over the reachable blocks other than the entry, and whether it has changed a set. -/
def stabilizeRound (order : Itinerary) (live : List BlockId) (preds : BlockSets) (round : Nat)
    (t : BlockSets) : Option (BlockSets × Bool) :=
  (live.filter (· != .entry)).foldlM (visit order live preds round) (t, false)

/-- Rounds until one changes nothing, if that takes no more than are allowed. -/
def stabilizeFrom (order : Itinerary) (live : List BlockId) (preds : BlockSets) :
    Nat → Nat → BlockSets → Option BlockSets
  | 0, _, _ => none
  | allowed + 1, round, t => do
    let (t, changed) ← stabilizeRound order live preds round t
    if changed then stabilizeFrom order live preds allowed (round + 1) t else return t

/-- The dominators of the reachable blocks, if their sets stabilize in the rounds that are
allowed. -/
def stabilized (g : Graph) (order : Itinerary) (allowed : Nat) : Option BlockSets :=
  let live := g.reachable
  let start : BlockSets := ⟨live.map fun b => (b, if b = .entry then [b] else live)⟩
  stabilizeFrom order live g.gatherPredecessors allowed 0 start

/-- More rounds than this the sets never need: one of them loses a block in every round but the
last. -/
def roundBound (g : Graph) : Nat := g.blocks.size * g.blocks.size + 1

/-- The reachable blocks with their dominators. -/
def dominatorList (g : Graph) : List (BlockId × List BlockId) :=
  match g.stabilized .ascending g.roundBound with
  | some t => g.reachable.filterMap fun b => (t.get? b).map fun held => (b, held)
  | none => []

end Graph

end Interpose
