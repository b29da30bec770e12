import Mathlib.Data.List.Count
import Interpose.Proofs.Lowering.Whole
import Interpose.Proofs.Source.Layout

/-!
# The branches that lowering adds

A graph is seen here as no more than the number of branches from each block to each other one.
Opening a block and adding a statement change none of these numbers, and every step that closes
blocks adds the branches that the text of the construct tells.
-/

set_option autoImplicit false

namespace Interpose

open Drafting Source

/-! ## Counting branches -/

namespace Graph

variable {g g' g'' : Graph} {b p t : BlockId} {block : Block} {new new' : List (BlockId × BlockId)}

/-- How many branches lead from one block to another. -/
def ways (g : Graph) (p t : BlockId) : Nat := ((g.block? p).getD .empty).targets.count t

theorem ways_pos : 0 < g.ways p t ↔ g.Follows p t := by
  unfold ways Follows
  rw [List.count_pos_iff]
  rcases g.block? p with _ | block
  · simp [Block.empty, Block.targets]
  · simp

theorem count_map_pair (a : BlockId) (targets : List BlockId) :
    (targets.map (a, ·)).count (p, t) = if p = a then targets.count t else 0 := by
  split
  · next hpa =>
    rw [hpa]
    exact List.count_map_of_injective targets _ (fun _ _ h => congrArg Prod.snd h) t
  · next hpa =>
    refine List.count_eq_zero.2 fun hmem => ?_
    obtain ⟨_, -, heq⟩ := List.mem_map.1 hmem
    exact hpa (congrArg Prod.fst heq).symm

/-- The branches that go back are listed block by block, and so each as often as there are ways. -/
theorem count_zipIdx (blocks : List Block) (n : Nat) :
    (((blocks.zipIdx n).map fun (b, i) => ((⟨i⟩ : BlockId), b)).flatMap fun (i, b) =>
        (b.targets.filter fun t => t.index ≤ i.index).map fun t => (i, t)).count (p, t)
      = if n ≤ p.index ∧ t.index ≤ p.index then ((blocks[p.index - n]?).getD .empty).targets.count t
        else 0 := by
  induction blocks generalizing n with
  | nil => simp [Block.empty, Block.targets]
  | cons b rest ih =>
    rw [List.zipIdx_cons, List.map_cons, List.flatMap_cons, List.count_append, count_map_pair, ih]
    -- the first block is the one that is counted from, or it is one of the others
    by_cases hpn : p = ⟨n⟩
    · have hlater : ¬(n + 1 ≤ p.index ∧ t.index ≤ p.index) := by
        rw [hpn]
        exact fun h => absurd h.1 (Nat.not_succ_le_self n)
      have hzero : p.index - n = 0 := by
        rw [hpn]
        exact Nat.sub_self n
      rw [if_pos hpn, if_neg hlater, hzero, List.getElem?_cons_zero, Option.getD_some, hpn,
        Nat.add_zero]
      by_cases ht : t.index ≤ n
      · rw [if_pos ⟨Nat.le_refl n, ht⟩]
        exact List.count_filter (decide_eq_true ht)
      · rw [if_neg fun h => ht h.2]
        exact List.count_eq_zero.2 fun hmem => ht (of_decide_eq_true (List.mem_filter.1 hmem).2)
    · have hindex : p.index ≠ n := fun h => hpn (congrArg BlockId.mk h)
      rw [if_neg hpn, Nat.zero_add]
      by_cases hle : n + 1 ≤ p.index
      · have hsucc : p.index - n = p.index - (n + 1) + 1 := by omega
        rw [hsucc, List.getElem?_cons_succ]
        simp only [hle, Nat.le_of_succ_le hle]
      · rw [if_neg fun h => hle h.1, if_neg fun h => hle (by omega)]

theorem count_backEdges (g : Graph) (p t : BlockId) :
    g.backEdges.count (p, t) = if t.index ≤ p.index then g.ways p t else 0 := by
  unfold backEdges indexedBlocks
  rw [count_zipIdx]
  simp [ways, block?]

/-- These are the branches of the graph, each as often as there are ways. -/
def Drawn (g : Graph) (edges : List (BlockId × BlockId)) : Prop :=
  ∀ p t, g.ways p t = edges.count (p, t)

theorem Drawn.mem {edges : List (BlockId × BlockId)} (h : g.Drawn edges)
    (hfollows : g.Follows p t) :
    (p, t) ∈ edges := List.count_pos_iff.1 (h p t ▸ ways_pos.2 hfollows)

/-- The second graph has the branches of the first one, and these. -/
def Adds (g : Graph) (new : List (BlockId × BlockId)) (g' : Graph) : Prop :=
  ∀ p t, g'.ways p t = g.ways p t + new.count (p, t)

theorem Adds.refl (g : Graph) : g.Adds [] g := fun _ _ => rfl

theorem Adds.trans (h : g.Adds new g') (h' : g'.Adds new' g'') : g.Adds (new ++ new') g'' := by
  intro p t
  rw [h' p t, h p t, List.count_append, Nat.add_assoc]

/-- Nothing is added if the blocks have the branches that they had. -/
theorem Adds.of_branches (h : ∀ p, ((g'.block? p).getD .empty).branches
    = ((g.block? p).getD .empty).branches) : g.Adds [] g' := by
  intro p t
  unfold ways Block.targets
  rw [h p, List.count_nil, Nat.add_zero]

theorem adds_branched (hb : g.block? b = some block) (brs : List Branch) :
    g.Adds ((brs.filterMap Branch.block?).map (b, ·)) (g.branched b brs) := by
  intro p t
  rw [count_map_pair, ways, block?_branched]
  by_cases hpb : p = b
  · subst hpb
    rw [if_pos rfl, if_pos rfl, ways, hb]
    simp [Block.targets]
  · rw [if_neg (Ne.symm hpb), if_neg hpb]
    rfl

theorem adds_connected (brs : Edge → List Branch) {edges : List Edge}
    (h : ∀ e ∈ edges, (g.block? e.source).isSome) :
    g.Adds (edges.flatMap fun e => ((brs e).filterMap Branch.block?).map (e.source, ·))
      (g.connected brs edges) := by
  induction edges generalizing g with
  | nil => exact .refl g
  | cons e es ih =>
    obtain ⟨block, hb⟩ := Option.isSome_iff_exists.1 (h e List.mem_cons_self)
    refine (adds_branched hb (brs e)).trans (ih fun e' he' => ?_)
    rw [block?_branched]
    split
    · rw [Option.isSome_map]
      exact h e' (List.mem_cons_of_mem e he')
    · exact h e' (List.mem_cons_of_mem e he')

/-! ### How many blocks there are -/

theorem size_withParams (g : Graph) (b : BlockId) (k : Nat) :
    (g.withParams b k).blocks.size = g.blocks.size := by
  induction k with
  | zero => rfl
  | succ k ih => simp [withParams, withParam, ih]

theorem size_branched (g : Graph) (b : BlockId) (brs : List Branch) :
    (g.branched b brs).blocks.size = g.blocks.size := by
  simp [branched, modifyBlock]

theorem size_connected (g : Graph) (brs : Edge → List Branch) (edges : List Edge) :
    (g.connected brs edges).blocks.size = g.blocks.size := by
  induction edges generalizing g with
  | nil => rfl
  | cons e es ih => rw [connected, ih, size_branched]

end Graph

/-! ## The steps of lowering -/

namespace Edge

/-- Where the branches of an edge lead that enters a block. -/
def leads (e : Edge) (target : BlockId) : List (BlockId × BlockId) :=
  (e.source, target) :: e.unlessTaken.toList.map fun u => (e.source, u.2)

theorem map_branches (e : Edge) (target : BlockId) (args : List Operand) :
    ((e.branches target args).filterMap Branch.block?).map (e.source, ·) = e.leads target := by
  unfold leads
  rcases hu : e.unlessTaken with _ | ⟨v, other⟩
  · rw [branches_none hu]
    rfl
  · rw [branches_some hu]
    rfl

end Edge

namespace Chart

variable {c c' c'' : Chart}

/-- Where the chart stands. -/
def spot (c : Chart) : Spot := ⟨c.block, c.graph.blocks.size⟩

theorem size_opened (c : Chart) (promise : Variable → Prop) (k : Nat) :
    (c.opened promise k).graph.blocks.size = c.graph.blocks.size + 1 := by
  rw [opened, Graph.size_withParams, Graph.addBlock, Array.size_push]

theorem size_emitted (c : Chart) (s : Statement) (line : Nat) :
    (c.emitted s line).graph.blocks.size = c.graph.blocks.size := by
  obtain ⟨lines, hnoted⟩ := noted_eq c.toDraft line
  simp [emitted, Graph.inserted, Graph.modifyBlock, hnoted]

/-! ### Branches -/

theorem Sound.adds_opened (h : c.Sound) (promise : Variable → Prop) (k : Nat) :
    c.graph.Adds [] (c.opened promise k).graph := by
  refine .of_branches fun p => ?_
  rw [h.block?_opened]
  split
  · next hp =>
    rw [hp, block?_size]
    rfl
  · rfl

theorem adds_emitted (hbare : c.Bare c.block) (s : Statement) (line : Nat) :
    c.graph.Adds [] (c.emitted s line).graph := by
  obtain ⟨block, hb, -⟩ := hbare
  refine .of_branches fun p => ?_
  rw [block?_emitted hb]
  split
  · next hp =>
    rw [← hp, hb]
    rfl
  · rfl

/-- From a chart that stands at `s` the branches were drawn that lead to `c'`, which stands at
`s'`. -/
structure Draws (c : Chart) (edges : List (BlockId × BlockId)) (s' : Spot) (c' : Chart) : Prop where
  adds : c.graph.Adds edges c'.graph
  spot : c'.spot = s'

section Draws

variable {s s' s'' : Spot} {edges edges' : List (BlockId × BlockId)}

theorem Draws.refl (hs : c.spot = s) : c.Draws [] s c := ⟨.refl _, hs⟩

theorem Draws.trans (h : c.Draws edges s' c') (h' : c'.Draws edges' s'' c'') :
    c.Draws (edges ++ edges') s'' c'' :=
  ⟨h.adds.trans h'.adds, h'.spot⟩

theorem Draws.still (h : c.Draws edges s' c') (h' : c'.Draws [] s'' c'') :
    c.Draws edges s'' c'' := by
  have hboth := h.trans h'
  rwa [List.append_nil] at hboth

theorem Ready.draws_emitted (h : c.Ready) (hs : c.spot = s) (st : Statement) (line : Nat) :
    c.Draws [] s (c.emitted st line) := by
  refine ⟨adds_emitted h.bare st line, hs ▸ ?_⟩
  unfold spot
  rw [size_emitted]
  rfl

theorem falseBlock_eq (hs : c.spot = s) : c.falseBlock = ⟨s.next + 1⟩ := by
  rw [← hs]
  exact congrArg BlockId.mk (size_opened c _ 0)

/-- A fork leads to two new blocks. The first is entered. -/
theorem Ready.draws_forked (h : c.Ready) (hs : c.spot = s) (v : Variable) (env : Bindings) :
    c.Draws s.fork s.onTrue ((c.forked v).moved c.trueBlock env false) := by
  obtain ⟨block, hb, -⟩ := h.bare
  refine ⟨?_, hs ▸ ?_⟩
  · -- two blocks are opened, which adds nothing, before the branches are drawn
    have hadds := (h.sound.adds_opened (c.Here c.block) 0).trans
      ((h.sound.openedHere.adds_opened (c.openedHere.Here c.block) 0).trans
        (Graph.adds_branched (h.opens hb).source (c.forkBranches v)))
    have hbranches : (c.forkBranches v).filterMap Branch.block? = [c.falseBlock, c.trueBlock] := rfl
    rw [hbranches, falseBlock_eq rfl] at hadds
    exact hs ▸ hadds
  · have hsize : (c.forked v).graph.blocks.size = c.graph.blocks.size + 2 := by
      have hbranched : (c.forked v).graph.blocks.size = c.openedHere.openedHere.graph.blocks.size :=
        Graph.size_branched _ _ _
      rw [hbranched, openedHere, size_opened, openedHere, size_opened]
    exact congrArg (Spot.mk c.next) hsize

/-- The second of the new blocks is entered. -/
theorem draws_onFalse (hs : c.spot = s) (hs' : c'.spot = s') (env : Bindings) :
    c'.Draws [] (s.onFalse s') (c'.moved c.falseBlock env false) := by
  refine ⟨.refl _, ?_⟩
  rw [falseBlock_eq hs, ← hs']
  rfl

/-- A single new block is entered later. -/
theorem Ready.draws_openedHere (h : c.Ready) (hs : c.spot = s) (env : Bindings) :
    c.Draws [] s.opened (c.openedHere.moved c.trueBlock env false) := by
  refine ⟨h.sound.adds_opened (c.Here c.block) 0, hs ▸ ?_⟩
  exact congrArg (Spot.mk c.next) (size_opened c (c.Here c.block) 0)

/-- Ways that meet lead into a new block. -/
theorem Sound.draws_met (h : c.Sound) (hs : c.spot = s) {ways : List Edge}
    (hbare : ∀ e ∈ ways, c.Bare e.source) (k : Nat) (args : Edge → List Operand) (env : Bindings) :
    c.Draws (ways.flatMap (·.leads s.fresh)) s.opened
      (c.met k (fun e => e.branches c.next (args e)) ways env) := by
  subst hs
  refine ⟨?_, ?_⟩
  · have hsources : ∀ e ∈ ways,
        ((c.openedFor ways k).graph.block? e.source).isSome := fun e he => by
      obtain ⟨block, hb, -⟩ := hbare e he
      rw [openedFor, (h.advances_opened _ k).frame _ block List.not_mem_nil hb]
      rfl
    have hadds := (h.adds_opened (fun v => ∀ e ∈ ways, c.Here e.source v) k).trans
      (Graph.adds_connected (fun e => e.branches c.next (args e)) hsources)
    simp only [Edge.map_branches] at hadds
    exact hadds
  · have hsize : (c.met k (fun e => e.branches c.next (args e)) ways env).graph.blocks.size
        = c.graph.blocks.size + 1 := (Graph.size_connected _ _ _).trans (size_opened c _ k)
    exact congrArg (Spot.mk c.next) hsize

theorem Joinable.draws {ways : List Edge} (h : c.Joinable c' ways) (hs : c'.spot = s)
    (live : Names) :
    c'.Draws (ways.flatMap (·.leads s.fresh)) (if ways.isEmpty then s else s.opened)
      (c'.joinedAll ways live) := by
  unfold joinedAll
  rcases hempty : ways.isEmpty with _ | _
  · exact h.sound.draws_met hs (fun e he => (h.departs e he).bare) _ _ _
  · rw [List.isEmpty_iff.1 hempty]
    exact ⟨.refl _, hs⟩

theorem Ready.draws_looped (h : c.Ready) (hs : c.spot = s) (carried : Names) :
    c.Draws [(s.block, s.fresh)] s.opened (c.looped carried) := by
  have hbare : ∀ e ∈ [c.approach], c.Bare e.source := fun e he => by
    obtain rfl := List.mem_singleton.1 he
    exact h.bare
  have hmet := h.sound.draws_met hs hbare carried.length (fun _ => carried.map c.env.passed)
    (c.carriedEnv carried)
  have hleads : [c.approach].flatMap (·.leads s.fresh) = [(s.block, s.fresh)] := by
    rw [← hs]
    rfl
  exact hleads ▸ hmet

theorem leads_out (hs : c.spot = s) (value : Option Operand) (target : BlockId) :
    (c.out value).leads target = [(s.block, target)] := by
  rw [← hs]
  rfl

/-- The way past a conditional leads there, and to its arm. -/
theorem leads_skip (hs : c.spot = s) (v : Variable) (target : BlockId) :
    (c.skip v).leads target = [(s.block, target), (s.block, s.fresh)] := by
  rw [← hs]
  rfl

/-- The ways out of an arm lead on unless it has returned. -/
theorem flatMap_outs (hs : c.spot = s) (target : BlockId) :
    c.outs.flatMap (·.leads target) = s.leadTo c.closed target := by
  subst hs
  unfold outs Spot.leadTo
  split <;> rfl

theorem draws_ledBack (hbare : c.closed = false → c.Bare c.block) (hs : c.spot = s) (head : BlockId)
    (carried : Names) : c.Draws (s.leadTo c.closed head) s (c.ledBack head carried) := by
  subst hs
  unfold ledBack Spot.leadTo
  rcases hclosed : c.closed with _ | _
  · obtain ⟨block, hb, -⟩ := hbare hclosed
    exact ⟨Graph.adds_branched hb _, congrArg (Spot.mk c.block) (Graph.size_branched _ _ _)⟩
  · exact .refl rfl

/-- A return leads to no block. -/
theorem draws_left (hbare : c.Bare c.block) (hs : c.spot = s) (op : Operand) :
    c.Draws [] s ((c.branched c.block [.leave op]).moved c.block c.env true) := by
  obtain ⟨block, hb, -⟩ := hbare
  exact ⟨Graph.adds_branched hb _, hs ▸ congrArg (Spot.mk c.block) (Graph.size_branched _ _ _)⟩

end Draws

end Chart

end Interpose
