import Interpose.Proofs.Lowering.Joins

/-!
# Lowering goes on

A chart is *ready* when it is sound and the next statement can be added to its open block. What is
lowered from there leads to a chart that *continues* it: sound, with everything that happened in the
open block and in new blocks, all of which are entered, and with at most one block open, where what
was bound before is bound still. There is one lemma here for each way in which lowering puts blocks
together: statements one after another, a fork, an arm that is lowered while other blocks wait, and
a join.
-/

set_option autoImplicit false

namespace Interpose

open Drafting

namespace Chart

variable {c c' c'' : Chart} {b : BlockId} {op : Operand} {env : Bindings}

/-- The chart can take the next statement. -/
structure Ready (c : Chart) : Prop where
  sound : c.Sound
  opened : c.closed = false
  bare : c.Bare c.block
  env : ∀ n op, c.env.get? n = some op → c.Reads c.block op

/-- The block where drafting goes on, unless the way has returned. -/
def ends (c : Chart) : List BlockId := if c.closed then [] else [c.block]

theorem ends_closed (h : c.closed = true) : c.ends = [] := if_pos h

theorem ends_opened (h : c.closed = false) : c.ends = [c.block] := by
  rw [ends, h]
  rfl

theorem mem_ends {b : BlockId} : b ∈ c.ends ↔ c.closed = false ∧ b = c.block := by
  rcases hclosed : c.closed with _ | _
  · simp [ends_opened hclosed]
  · simp [ends_closed hclosed]

theorem nodup_ends (c : Chart) : c.ends.Nodup := by
  rcases hclosed : c.closed with _ | _
  · rw [ends_opened hclosed]
    exact List.pairwise_singleton _ _
  · rw [ends_closed hclosed]
    exact .nil

/-- What is lowered from `c` on leads to `c'`. -/
structure Continues (c c' : Chart) : Prop where
  sound : c'.Sound
  advances : Advances [c.block] c c'.ends c'
  entered : Entered c c'
  here : c'.closed = false → ∀ v, c.Here c.block v → c'.Here c'.block v
  env : c'.closed = false → ∀ n op, c'.env.get? n = some op → c'.Reads c'.block op

/-- The expressions that lead to `c'` are worth what the operands hold. They bind no name. -/
structure Computes (c : Chart) (ops : List Operand) (c' : Chart) : Prop extends c.Continues c' where
  opened : c'.closed = false
  sub : ∀ n op, c'.env.get? n = some op → c.env.get? n = some op
  reads : ∀ op ∈ ops, c'.Reads c'.block op

theorem Ready.bare_all (h : c.Ready) : ∀ b ∈ [c.block], c.Bare b := fun b hb => by
  obtain rfl := List.mem_singleton.1 hb
  exact h.bare

/-! ## Going on -/

namespace Continues

theorem refl (h : c.Ready) : c.Continues c where
  sound := h.sound
  advances := by
    rw [ends_opened h.opened]
    exact .refl h.bare_all
  entered b hnone hsome := by
    rw [hnone] at hsome
    cases hsome
  here _ _ hv := hv
  env _ := h.env

theorem ready (h : c.Continues c') (hopen : c'.closed = false) : c'.Ready where
  sound := h.sound
  opened := hopen
  bare := h.advances.stop c'.block (by rw [ends_opened hopen]; exact List.mem_cons_self)
  env := h.env hopen

theorem reads (h : c.Continues c') (hopen : c'.closed = false) (hop : c.Reads c.block op) :
    c'.Reads c'.block op := fun v hv => h.here hopen v (hop v hv)

theorem trans (h : c.Continues c') (hopen : c'.closed = false) (h' : c'.Continues c'') :
    c.Continues c'' where
  sound := h'.sound
  advances := by
    have ha := h.advances
    rw [ends_opened hopen] at ha
    exact ha.trans h'.advances (fun b hb => hb) (fun b hb => .inl hb) (fun b hb => hb)
      fun b hb => .inl hb
  entered := h.entered.trans h'.entered h'.advances
  here hopen' v hv := h'.here hopen' v (h.here hopen v hv)
  env := h'.env

end Continues

namespace Computes

variable {ops : List Operand}

theorem refl (h : c.Ready) (hops : ∀ op ∈ ops, c.Reads c.block op) : c.Computes ops c where
  toContinues := .refl h
  opened := h.opened
  sub _ _ hop := hop
  reads := hops

theorem isReady (h : c.Computes ops c') : c'.Ready := h.ready h.opened

theorem trans {ops' : List Operand} (h : c.Computes ops c') (h' : c'.Computes ops' c'') :
    c.Computes ops' c'' where
  toContinues := h.toContinues.trans h.opened h'.toContinues
  opened := h'.opened
  sub n op hop := h.sub n op (h'.sub n op hop)
  reads := h'.reads

end Computes

/-! ## Statements -/

/-- A statement is emitted into the open block, and its variable is bound there. -/
theorem Ready.emit (h : c.Ready) {s : Statement} (huses : ∀ v ∈ s.uses, c.Here c.block v)
    (line : Nat) :
    Yields (Drafting.emit s line) c.toDraft c.graph.fresh (c.emitted s line).toDraft
      ∧ c.Computes [.var c.graph.fresh] (c.emitted s line) := by
  obtain ⟨hyields, hsound, hfresh⟩ := h.sound.emit h.bare huses line
  have ha := advances_emitted h.bare s line
  obtain ⟨block, hb, -⟩ := h.bare
  refine ⟨hyields, ⟨hsound, ?_, ?_, fun _ v hv => ha.here hb hv, fun _ n op hop v hv =>
    ha.here hb (h.env n op hop v hv)⟩, h.opened, fun _ _ hop => hop, ?_⟩
  · have hends : (c.emitted s line).ends = [c.block] := ends_opened h.opened
    rw [hends]
    exact ha
  · intro a hnone hsome
    rw [block?_emitted hb] at hsome
    by_cases ha : c.block = a
    · subst ha
      rw [hb] at hnone
      cases hnone
    · rw [if_neg ha, hnone] at hsome
      cases hsome
  · intro op hop v hv
    obtain rfl := List.mem_singleton.1 hop
    obtain rfl := Option.some.inj hv
    exact hfresh

/-! ## Forks -/

/-- The chart with an empty block to which all that is bound here is promised. -/
def openedHere (c : Chart) : Chart := c.opened (fun v => c.Here c.block v) 0

/-- The blocks that a fork opens. -/
def trueBlock (c : Chart) : BlockId := c.next
def falseBlock (c : Chart) : BlockId := c.openedHere.next

/-- The branches of a fork. -/
def forkBranches (c : Chart) (v : Variable) : List Branch :=
  [(Branch.jump c.falseBlock []).whenFalse v, .jump c.trueBlock []]

/-- The chart after a fork. -/
def forked (c : Chart) (v : Variable) : Chart :=
  c.openedHere.openedHere.branched c.block (c.forkBranches v)

theorem Sound.openedHere (h : c.Sound) : c.openedHere.Sound :=
  h.opened 0 fun _ hv => h.mem_boundVars hv

theorem Sound.advances_openedHere (h : c.Sound) : Advances [] c [c.trueBlock] c.openedHere :=
  h.advances_opened _ 0

theorem Sound.block?_openedHere (h : c.Sound) (b : BlockId) : c.openedHere.graph.block? b
    = if b = c.trueBlock then some .empty else c.graph.block? b := h.block?_opened _ 0 b

/-- A block that exists is not the next one. -/
theorem ne_next {block : Block} (hb : c.graph.block? b = some block) : b ≠ c.next := by
  rintro rfl
  rw [block?_size] at hb
  cases hb

/-- What two new blocks and the open block are like before the fork is closed. -/
structure Opens (c : Chart) (block : Block) : Prop where
  source : c.openedHere.openedHere.graph.block? c.block = some block
  onTrue : c.openedHere.openedHere.graph.block? c.trueBlock = some .empty
  onFalse : c.openedHere.openedHere.graph.block? c.falseBlock = some .empty
  here : ∀ w, c.Here c.block w → c.openedHere.openedHere.Here c.block w
  distinct : c.block ≠ c.trueBlock ∧ c.block ≠ c.falseBlock ∧ c.trueBlock ≠ c.falseBlock
  /-- The promises are those of the block that forks. -/
  avail : ∀ w, (c.openedHere.openedHere.avail c.trueBlock w ↔ c.Here c.block w)
    ∧ (c.openedHere.openedHere.avail c.falseBlock w → c.openedHere.openedHere.Here c.block w)
    ∧ (c.Here c.block w → c.openedHere.openedHere.avail c.falseBlock w)

theorem Ready.opens (h : c.Ready) {block : Block} (hb : c.graph.block? c.block = some block) :
    c.Opens block := by
  have hsound₁ := h.sound.openedHere
  have ha₁ := h.sound.advances_openedHere
  have ha₂ := hsound₁.advances_openedHere
  have hb₁ := ha₁.frame c.block block nofun hb
  have ht₁ : c.openedHere.graph.block? c.trueBlock = some .empty := by
    rw [h.sound.block?_openedHere, if_pos rfl]
  refine ⟨ha₂.frame _ _ nofun hb₁, ha₂.frame _ _ nofun ht₁, ?_,
    fun w hw => ha₂.here hb₁ (ha₁.here hb hw), ⟨ne_next hb, ne_next hb₁, ne_next ht₁⟩,
    fun w => ⟨?_, fun hw => ?_, fun hw => ?_⟩⟩
  · exact (hsound₁.block?_openedHere _).trans (if_pos rfl)
  · rw [ha₂.avail_eq _ _ ht₁, openedHere, trueBlock, avail_opened]
  · rw [falseBlock, Chart.openedHere.eq_1 c.openedHere, avail_opened] at hw
    exact ha₂.here hb₁ hw
  · rw [falseBlock, Chart.openedHere.eq_1 c.openedHere, avail_opened]
    exact ha₁.here hb hw

/-- Both branches of a fork may be added when the condition is bound. -/
theorem Ready.leads_fork (h : c.Ready) {v : Variable} (hv : c.Here c.block v) :
    ∀ br ∈ c.forkBranches v, c.openedHere.openedHere.Leads c.block br := by
  obtain ⟨block, hb, -⟩ := h.bare
  have hopens := h.opens hb
  intro br hbr
  rcases List.mem_cons.1 hbr with rfl | hbr
  · refine ⟨fun w hw => ?_, ⟨_, hopens.onFalse, rfl⟩, fun t ht w hw => ?_⟩
    · obtain rfl : w = v := by simpa [Branch.uses, Branch.whenFalse, Branch.jump] using hw
      exact hopens.here w hv
    · obtain rfl := Target.block.inj ht
      exact (hopens.avail w).2.1 hw
  · obtain rfl := List.mem_singleton.1 hbr
    refine ⟨fun w hw => ?_, ⟨_, hopens.onTrue, rfl⟩, fun t ht w hw => ?_⟩
    · cases hw
    obtain rfl := Target.block.inj ht
    exact hopens.here w ((hopens.avail w).1.1 hw)

theorem closing_fork (c : Chart) (v : Variable) : Closing (c.forkBranches v) := by
  refine ⟨[_], _, rfl, rfl, fun br hbr => ?_⟩
  obtain rfl := List.mem_singleton.1 hbr
  exact nofun

/-- What is true of the chart after a fork. -/
structure Forks (c : Chart) (v : Variable) (c' : Chart) : Prop where
  sound : c'.Sound
  advances : Advances [c.block] c [c.trueBlock, c.falseBlock] c'
  entered : Entered c c'
  here : ∀ w, c.Here c.block w → c'.Here c.trueBlock w ∧ c'.Here c.falseBlock w
  distinct : c.trueBlock ≠ c.falseBlock
  onTrue : c'.graph.block? c.trueBlock = some .empty
  onFalse : c'.graph.block? c.falseBlock = some .empty
  source : ∀ block, c.graph.block? c.block = some block →
    c'.graph.block? c.block = some { block with branches := c.forkBranches v }

/-- A fork closes the block where it stands, and opens two. -/
theorem Ready.block?_forked (h : c.Ready) (v : Variable) {block : Block}
    (hb : c.graph.block? c.block = some block) :
    (c.forked v).graph.block? c.block = some { block with branches := c.forkBranches v } := by
  obtain ⟨block', hb', hempty⟩ := h.bare
  obtain rfl := Option.some.inj (hb.symm.trans hb')
  have hbranched :=
    Graph.block?_branched c.openedHere.openedHere.graph c.block c.block (c.forkBranches v)
  rw [if_pos rfl, (h.opens hb).source, Option.map_some, hempty] at hbranched
  exact hbranched

theorem block?_forked_of_ne (v : Variable) {b : BlockId} (hne : b ≠ c.block) :
    (c.forked v).graph.block? b = c.openedHere.openedHere.graph.block? b :=
  (Graph.block?_branched _ _ _ _).trans (if_neg (Ne.symm hne))

theorem Ready.entered_forked (h : c.Ready) (v : Variable) : Entered c (c.forked v) := by
  obtain ⟨block, hb, -⟩ := h.bare
  have hself := h.block?_forked v hb
  intro a hnone hsome
  have hne : a ≠ c.block := by
    rintro rfl
    rw [hb] at hnone
    cases hnone
  rw [block?_forked_of_ne v hne, h.sound.openedHere.block?_openedHere] at hsome
  -- a block that was not there is one of the two, and the fork leads to both
  by_cases hf : a = c.falseBlock
  · subst hf
    have hb₁ := h.sound.advances_openedHere.frame c.block block nofun hb
    refine ⟨c.block, Graph.lt_size_of_block? hb₁, _, hself, ?_⟩
    simp [Block.targets, forkBranches, Branch.block?, Branch.whenFalse, Branch.jump]
  · have hnext : a ≠ c.openedHere.trueBlock := hf
    rw [if_neg hnext, h.sound.block?_openedHere] at hsome
    by_cases ht : a = c.trueBlock
    · subst ht
      refine ⟨c.block, Graph.lt_size_of_block? hb, _, hself, ?_⟩
      simp [Block.targets, forkBranches, Branch.block?, Branch.whenFalse, Branch.jump]
    · rw [if_neg ht, hnone] at hsome
      cases hsome

/-- **A fork is accepted** when its condition is bound. -/
theorem Ready.fork (h : c.Ready) {v : Variable} (hv : c.Here c.block v) :
    Yields (Drafting.fork v) c.toDraft (c.trueBlock, c.falseBlock) (c.forked v).toDraft
      ∧ c.Forks v (c.forked v) := by
  obtain ⟨block, hb, hempty⟩ := h.bare
  have hopens := h.opens hb
  have hleads := h.leads_fork hv
  have hclosing := c.closing_fork v
  have hsound₂ := h.sound.openedHere.openedHere
  have hbare : c.openedHere.openedHere.Bare c.block := ⟨block, hopens.source, hempty⟩
  obtain ⟨hct, hcf, htf⟩ := hopens.distinct
  obtain ⟨hfirst, hsecond⟩ := hsound₂.yields_branches hbare (hleads _ List.mem_cons_self)
    (hleads _ (List.mem_cons_of_mem _ List.mem_cons_self))
  refine ⟨yields_fork.2 ⟨_, _, rfl, hfirst, hsecond, rfl⟩,
    hsound₂.branched hbare hclosing hleads, ?_, h.entered_forked v, fun w hw => ⟨.inl ?_, .inl ?_⟩,
    htf, ?_, ?_, fun _ hb' => h.block?_forked v hb'⟩
  · -- the two blocks are opened one after the other, and then the one where the fork stands is
    -- closed
    have h₁ : Advances [c.block] c [c.block, c.trueBlock] c.openedHere :=
      h.sound.advances_openedHere.beside h.bare_all nofun
    have h₂ : Advances [c.block] c [c.block, c.trueBlock, c.falseBlock] c.openedHere.openedHere :=
      h₁.trans h.sound.openedHere.advances_openedHere nofun (by grind)
        (by grind [falseBlock, trueBlock]) (by grind [falseBlock, trueBlock])
    exact h₂.trans (advances_branched hbare hclosing) (by grind) (by grind) nofun (by grind)
  · exact (hopens.avail w).1.2 hw
  · exact (hopens.avail w).2.2 hw
  · rw [block?_forked_of_ne v (Ne.symm hct), hopens.onTrue]
  · rw [block?_forked_of_ne v (Ne.symm hcf), hopens.onFalse]

/-! ## Arms -/

/-- The edge from where a chart stands. -/
def out (c : Chart) (value : Option Operand) : Edge := ⟨c.block, c.env, value, none⟩

/-- The same, if the way has not returned. -/
def outs (c : Chart) : List Edge := if c.closed then [] else [c.out none]

theorem mem_outs {e : Edge} : e ∈ c.outs ↔ c.closed = false ∧ e = c.out none := by
  unfold outs
  rcases c.closed with _ | _
  · simp
  · simp

theorem map_source_outs (c : Chart) : c.outs.map Edge.source = c.ends := by
  unfold outs ends
  split <;> rfl

theorem yields_edge (d : Draft) (value : Option Operand) :
    Yields (edge value) d ⟨d.block, d.env, value, none⟩ d :=
  yields_bind.2 ⟨d, d, yields_get.2 ⟨rfl, rfl⟩, yields_pure.2 ⟨rfl, rfl⟩⟩

theorem yields_edge? (c : Chart) : Yields edge? c.toDraft c.outs c.toDraft := by
  refine yields_bind.2 ⟨_, _, yields_get.2 ⟨rfl, rfl⟩, ?_⟩
  unfold outs
  split
  · exact yields_pure.2 ⟨rfl, rfl⟩
  · exact yields_bind.2 ⟨_, _, yields_edge _ _, yields_pure.2 ⟨rfl, rfl⟩⟩

/-- An arm that was lowered in an open block, while `others` stay open for later. -/
structure Arm (c : Chart) (b : BlockId) (others : List BlockId) (c' : Chart) : Prop where
  sound : c'.Sound
  advances : Advances (others ++ [b]) c (others ++ c'.ends) c'
  entered : Entered c c'
  here : c'.closed = false → ∀ v, c.Here b v → c'.Here c'.block v
  env : c'.closed = false → ∀ n op, c'.env.get? n = some op → c'.Reads c'.block op
  apart : c'.closed = false → c'.block ∉ others

/-- A chart that stands at an open block is ready. -/
theorem ready_moved (hsound : c.Sound) (hbare : c.Bare b)
    (henv : ∀ n op, env.get? n = some op → c.Reads b op) : (c.moved b env false).Ready :=
  ⟨hsound.moved, rfl, hbare, henv⟩

theorem Continues.arm (h : (c.moved b env false).Continues c') {others : List BlockId}
    (hothers : ∀ a ∈ others, c.Bare a) (hb : b ∉ others) : c.Arm b others c' where
  sound := h.sound
  advances := by
    refine h.advances.of_moved.beside hothers fun a ha hmem => hb ?_
    obtain rfl : a = b := List.mem_singleton.1 hmem
    exact ha
  entered := h.entered
  here := h.here
  env := h.env
  apart hopen hmem := by
    rcases h.advances.of_moved.fresh _ (mem_ends.2 ⟨hopen, rfl⟩) with hb' | hnone
    · have heq : c'.block = b := List.mem_singleton.1 hb'
      exact hb (heq ▸ hmem)
    · obtain ⟨block, hblock, -⟩ := hothers _ hmem
      rw [hnone] at hblock
      cases hblock

namespace Arm

variable {others : List BlockId}

theorem bare (h : c.Arm b others c') {a : BlockId} (ha : a ∈ others) : c'.Bare a :=
  h.advances.stop a (List.mem_append_left _ ha)

theorem bare_end (h : c.Arm b others c') (hopen : c'.closed = false) : c'.Bare c'.block :=
  h.advances.stop _ (List.mem_append_right _ (mem_ends.2 ⟨hopen, rfl⟩))

/-- An arm does not end in a block that stays open for later. -/
theorem notMem_ends (h : c.Arm b others c') {a : BlockId} (ha : a ∈ others) : a ∉ c'.ends := by
  intro hmem
  obtain ⟨hopen, rfl⟩ := mem_ends.1 hmem
  exact h.apart hopen ha

/-- What was bound before the arm still is. -/
theorem here_of_bare (h : c.Arm b others c') {a : BlockId} (ha : c.Bare a) {v : Variable}
    (hv : c.Here a v) : c'.Here a v := by
  obtain ⟨block, hblock, -⟩ := ha
  exact h.advances.here hblock hv

/-- The way out of an arm departs. -/
theorem departs (h : c.Arm b others c') (hopen : c'.closed = false) {value : Option Operand}
    (hvalue : ∀ op, value = some op → c'.Reads c'.block op) : c'.Departs (c'.out value) :=
  ⟨h.bare_end hopen, h.env hopen, hvalue, nofun⟩

end Arm

/-- An edge still departs after something was lowered beside it. -/
theorem Departs.beside {e : Edge} {others : List BlockId} (h : c.Departs e) (ha : c.Arm b others c')
    (hmem : e.source ∈ others) : c'.Departs e := by
  have hhere : ∀ v, c.Here e.source v → c'.Here e.source v := fun v hv => ha.here_of_bare h.bare hv
  refine ⟨ha.bare hmem, fun n op hop v hv => hhere v (h.env n op hop v hv),
    fun op hop v hv => hhere v (h.value op hop v hv), fun v other hu => ?_⟩
  obtain ⟨hv, ⟨block, hb, hparams⟩, hother⟩ := h.unlessTaken v other hu
  obtain ⟨block', hb', hparams', -⟩ := ha.advances.exists_block hb
  refine ⟨hhere v hv, ⟨block', hb', hparams'.trans hparams⟩, fun w hw => hhere w (hother w ?_)⟩
  rw [ha.advances.avail_eq _ _ hb] at hw
  exact hw

/-! ## Two arms -/

/-- What two arms lead to, of which each starts at a block of a fork. -/
theorem Forks.arms {v : Variable} {c₁ c₂ c₃ : Chart} (h : c.Forks v c₁)
    (h₁ : c₁.Arm c.trueBlock [c.falseBlock] c₂) (h₂ : c₂.Arm c.falseBlock c₂.ends c₃) :
    Advances [c.block] c (c₂.ends ++ c₃.ends) c₃ ∧ Entered c c₃ ∧ (c₂.ends ++ c₃.ends).Nodup
      ∧ ∀ v, c.Here c.block v → ∀ b ∈ c₂.ends ++ c₃.ends, c₃.Here b v := by
  have hne := h.distinct
  have hfalse : c.falseBlock ∉ c₂.ends := h₁.notMem_ends List.mem_cons_self
  -- the second arm is lowered in the chart where the first one ended, and leaves its end as it is
  refine ⟨?_, ?_, ?_, fun v hv b hb => ?_⟩
  · have ha₁ : Advances [c.block] c (c₂.ends ++ [c.falseBlock]) c₂ :=
      h.advances.trans h₁.advances (by grind) (by grind) (by grind) (by grind)
    exact ha₁.trans h₂.advances (by grind) (by grind) (by grind) (by grind)
  · exact (h.entered.trans h₁.entered h₁.advances).trans h₂.entered h₂.advances
  · exact List.nodup_append.2 ⟨c₂.nodup_ends, c₃.nodup_ends,
      fun a ha b hb hab => h₂.notMem_ends (hab ▸ ha) hb⟩
  · obtain ⟨htrue, hother⟩ := h.here v hv
    have hbare : c₁.Bare c.falseBlock := ⟨_, h.onFalse, rfl⟩
    rcases List.mem_append.1 hb with hb | hb
    · obtain ⟨hopen, rfl⟩ := mem_ends.1 hb
      exact h₂.here_of_bare (h₁.bare_end hopen) (h₁.here hopen v htrue)
    · obtain ⟨hopen, rfl⟩ := mem_ends.1 hb
      exact h₂.here hopen v (h₁.here_of_bare hbare hother)

/-! ## Joins -/

/-- The way past a conditional that has one arm. -/
def skip (c : Chart) (v : Variable) : Edge := ⟨c.block, c.env, none, some (v, c.trueBlock)⟩

/-- The chart after the edges were joined, which is closed if there are none. -/
def joinedAll (c : Chart) (edges : List Edge) (live : Names) : Chart :=
  if edges.isEmpty then c.moved c.block c.env true else c.joined edges live

theorem joinedAll_of_ne {edges : List Edge} (hne : edges ≠ []) (live : Names) :
    c.joinedAll edges live = c.joined edges live := if_neg (by simpa using hne)

/-- What was lowered from `c` to `c'` has led to edges that can be joined. A block that is not
entered yet is entered by an edge. -/
structure Joinable (c c' : Chart) (edges : List Edge) : Prop where
  sound : c'.Sound
  advances : Advances [c.block] c (edges.map Edge.source) c'
  entered : ∀ b, c.graph.block? b = none → (c'.graph.block? b).isSome →
    (∃ q : BlockId, q.index < b.index ∧ c'.graph.Follows q b)
      ∨ ∃ e ∈ edges, e.source.index < b.index ∧ ∃ v, e.unlessTaken = some (v, b)
  nodup : (edges.map Edge.source).Nodup
  departs : ∀ e ∈ edges, c'.Departs e
  here : ∀ v, c.Here c.block v → ∀ e ∈ edges, c'.Here e.source v

namespace Joinable

variable {edges : List Edge}

theorem yields (h : c.Joinable c' edges) (live : Names) : Yields (join edges live) c'.toDraft
    (Edge.outcome edges live c'.graph.varCount) (c'.joinedAll edges live).toDraft := by
  by_cases hne : edges = []
  · subst hne
    have houtcome : Edge.outcome [] live c'.graph.varCount = none := rfl
    unfold join
    rw [if_pos List.isEmpty_nil, houtcome]
    exact yields_bind.2 ⟨(), _, yields_modify.2 rfl, yields_pure.2 ⟨rfl, rfl⟩⟩
  · rw [joinedAll_of_ne hne]
    exact yields_join h.sound hne h.nodup h.departs

/-- **A join continues the chart** from where its ways part. -/
theorem continues (h : c.Joinable c' edges) (live : Names) :
    c.Continues (c'.joinedAll edges live) := by
  by_cases hne : edges = []
  · -- no way leads on, so nothing is opened
    subst hne
    refine ⟨h.sound.moved, h.advances.moved, fun b hnone hsome => ?_, nofun, nofun⟩
    rcases h.entered b hnone hsome with hq | ⟨e, he, -⟩
    · exact hq
    · cases he
  · have hmeets := meets_join live hne h.nodup h.departs
    have hadv : Advances _ c' _ (c'.joined edges live) := hmeets.advances h.sound
    have hends : (c'.joined edges live).ends = [c'.next] := rfl
    rw [joinedAll_of_ne hne]
    refine ⟨hmeets.sound h.sound, ?_, fun b hnone hsome => ?_, fun _ v hv => here_met (h.here v hv),
      fun _ n op hop => reads_joined h.sound hne h.nodup h.departs hop⟩
    · rw [hends]
      exact h.advances.trans hadv (fun b hb => hb) (fun b hb => .inl hb) (fun b hb => hb)
        fun b hb => .inl hb
    · rcases hc' : c'.graph.block? b with _ | block
      · exact hmeets.entered h.sound b hc' hsome
      · rcases h.entered b hnone (by rw [hc']; rfl) with ⟨q, hlt, hq⟩ | ⟨e, he, hlt, v, hu⟩
        · exact ⟨q, hlt, hadv.follows hq⟩
        · obtain ⟨source, hsource, -⟩ := (h.departs e he).bare
          refine ⟨e.source, hlt, _, hmeets.block?_source h.sound he hsource, ?_⟩
          rw [Block.targets, Edge.branches_some hu]
          exact List.mem_filterMap.2 ⟨_, List.mem_cons_of_mem _ List.mem_cons_self, rfl⟩

end Joinable

end Chart

end Interpose
