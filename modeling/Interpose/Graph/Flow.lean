import Interpose.Graph.Basic

/-!
# Control flow

Which blocks follow which, which blocks a run can reach, and which blocks every way from the entry
to a block passes through. The last are the dominators of the block. They are the largest sets that
satisfy

* the entry is dominated by itself alone;
* any other block is dominated by itself and by what dominates all of its reachable predecessors.

`dominatorsVia` starts from the sets of all reachable blocks and takes away what the second
condition forbids until nothing changes. Each round that changes something makes the sets smaller,
so the rounds end.
-/

set_option autoImplicit false

namespace Interpose

namespace Graph

/-- The blocks that follow a block, each once, in the order of the branches. -/
def successors (g : Graph) (b : BlockId) : List BlockId :=
  match g.block? b with
  | some block => block.targets.eraseDups
  | none => []

/-- The blocks that a block follows, in order. -/
def predecessors (g : Graph) (b : BlockId) : List BlockId :=
  g.blockIds.filter fun p => (g.successors p).contains b

/-! ## Reachable blocks -/

/-- How many blocks are not among `seen`. -/
def unseen (g : Graph) (seen : List BlockId) : Nat :=
  (g.blockIds.filter fun b => !seen.contains b).length

/-- Seeing one more block leaves fewer unseen. -/
theorem unseen_cons_lt (g : Graph) (seen : List BlockId) (b : BlockId)
    (hb : b.index < g.blocks.size) (hs : seen.contains b = false) :
    g.unseen (b :: seen) < g.unseen seen := by
  have hmem : b ∈ g.blockIds.filter fun b => !seen.contains b := by
    refine List.mem_filter.2 ⟨?_, by simp only [hs, Bool.not_false]⟩
    exact List.mem_map.2 ⟨b.index, List.mem_range.2 hb, rfl⟩
  have hsplit : g.blockIds.filter (fun c => !(b :: seen).contains c)
      = (g.blockIds.filter fun c => !seen.contains c).filter fun c => !(c == b) := by
    rw [List.filter_filter]
    congr 1
    funext c
    simp only [List.contains_cons, Bool.not_or]
  rw [unseen, unseen, hsplit]
  exact List.length_filter_lt_length_iff_exists.2 ⟨b, hmem, by simp⟩

/-- Adds to `seen` all that can be reached from the blocks of `work`. -/
def explore (g : Graph) (seen work : List BlockId) : List BlockId :=
  match work with
  | [] => seen
  | b :: rest =>
    if b.index < g.blocks.size ∧ seen.contains b = false then
      explore g (b :: seen) (g.successors b ++ rest)
    else explore g seen rest
termination_by (g.unseen seen, work.length)
decreasing_by
  · next hb => exact .left _ _ (unseen_cons_lt g seen b hb.1 hb.2)
  · exact .right _ (by simp)

/-- The blocks that a run from the entry can reach, in order. -/
def reachable (g : Graph) : List BlockId :=
  let seen := g.explore [] [.entry]
  g.blockIds.filter seen.contains

/-! ## Dominators -/

/-- For every block, the blocks that are still held to dominate it. -/
abbrev DominatorTable := Array (List BlockId)

/-- The number of entries of all sets together. -/
def DominatorTable.weight (t : DominatorTable) : Nat :=
  t.toList.foldr (fun held n => held.length + n) 0

/-- What the table holds for a block. -/
def DominatorTable.of (t : DominatorTable) (b : BlockId) : List BlockId := t.getD b.index []

/-- Keeps for the block `b` only itself and what is held to dominate all of `preds`. -/
def DominatorTable.restrict (t : DominatorTable) (b : BlockId) (preds : List BlockId) :
    DominatorTable :=
  t.modify b.index fun held => held.filter fun d => d == b || preds.all fun p => (t.of p).contains d

/-- One round over the reachable blocks other than the entry, in place. -/
def dominatorRound (live : List BlockId) (preds : BlockId → List BlockId) (t : DominatorTable) :
    DominatorTable :=
  (live.filter (· != .entry)).foldl
    (fun t b => t.restrict b ((preds b).filter live.contains)) t

/-- Rounds until the sets get no smaller. -/
def dominatorLimit (live : List BlockId) (preds : BlockId → List BlockId) (t : DominatorTable) :
    DominatorTable :=
  let next := dominatorRound live preds t
  if DominatorTable.weight next < DominatorTable.weight t then dominatorLimit live preds next
  else next
termination_by DominatorTable.weight t

/-- The dominators of every block, for a listing of the predecessors. -/
def dominatorsVia (g : Graph) (preds : BlockId → List BlockId) : DominatorTable :=
  let live := g.reachable
  let start : DominatorTable := ((g.blockIds.map fun b =>
    if b = .entry then [b] else if live.contains b then live else [])).toArray
  dominatorLimit live preds start

/-- The dominators of every block: the block itself included, in order, and none for a block that
cannot be reached. -/
def dominators (g : Graph) : DominatorTable := g.dominatorsVia g.predecessors

end Graph

end Interpose
