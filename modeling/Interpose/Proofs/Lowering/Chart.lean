import Interpose.Proofs.Graph.Coherence
import Interpose.Proofs.Graph.WellFormed
import Interpose.Proofs.Lowering.Steps

/-!
# Charts: drafts with what is bound where

While a graph is drafted its branches are not complete yet, so walks do not say what is bound at a
block. A *chart* is a draft that remembers it: when a block is opened, the variables that every way
into it will have bound are written down as available there, and every branch that is added later
has to keep that promise. The chart is *sound* when all promises are kept so far. Once all blocks
are closed, a sound chart is a graph in order, because a walk collects what its branches were
promised.

How a chart may change is said by `Advances o c o' c'`: all that happened between `c` and `c'`
happened in the blocks `o`, which were open, and in new blocks, and of all these only the blocks
`o'` are still open.
-/

set_option autoImplicit false

namespace Interpose

/-- A draft with, for every block, the variables that are bound on every way that leads there. -/
structure Chart extends Draft where
  avail : BlockId → Variable → Prop

namespace Chart

variable {c c' c'' : Chart} {b : BlockId} {block : Block} {v : Variable} {op : Operand}
  {o o' o'' p p' : List BlockId}

/-- The block that is opened next. -/
def next (c : Chart) : BlockId := ⟨c.graph.blocks.size⟩

/-- The variable is bound at the end of the block. -/
def Here (c : Chart) (b : BlockId) (v : Variable) : Prop :=
  c.avail b v ∨ ∃ block, c.graph.block? b = some block ∧ v ∈ block.boundVars

/-- What the operand reads is bound at the end of the block. -/
def Reads (c : Chart) (b : BlockId) (op : Operand) : Prop := ∀ v, op.var? = some v → c.Here b v

/-- The block exists and has no branch. -/
def Bare (c : Chart) (b : BlockId) : Prop :=
  ∃ block, c.graph.block? b = some block ∧ block.branches = []

/-- The block keeps what was promised: to itself when it reads, to other blocks when it branches. -/
structure Fits (c : Chart) (b : BlockId) (block : Block) : Prop where
  statement : ∀ i w s, block.body[i]? = some (w, s) → ∀ v ∈ s.uses,
    c.avail b v ∨ v ∈ block.boundAt (some i)
  branch : ∀ br ∈ block.branches, ∀ v ∈ br.uses, c.avail b v ∨ v ∈ block.boundVars
  balanced : ∀ br ∈ block.branches, c.graph.Takes br.target br.args.length
  edge : ∀ br ∈ block.branches, ∀ t, br.target = .block t → ∀ v, c.avail t v →
    c.avail b v ∨ v ∈ block.boundVars
  conditional : ∀ br ∈ block.branches.dropLast, br.condition ≠ none

/-- All blocks keep what was promised. -/
structure Sound (c : Chart) : Prop where
  coherent : c.graph.Coherent
  bound : ∀ b v, c.avail b v → v ∈ c.graph.boundVars
  /-- Nothing is bound before a run begins. -/
  entry : ∀ v, ¬c.avail .entry v
  size_pos : 0 < c.graph.blocks.size
  fits : ∀ b block, c.graph.block? b = some block → c.Fits b block

/-- From `c` to `c'`, only the open blocks `o` and new blocks have changed, and among these only the
blocks `o'` are open. An open block only gets longer. -/
structure Advances (o : List BlockId) (c : Chart) (o' : List BlockId) (c' : Chart) : Prop where
  vars_le : c.graph.varCount ≤ c'.graph.varCount
  avail_eq : ∀ b block, c.graph.block? b = some block → c'.avail b = c.avail b
  start : ∀ b ∈ o, c.Bare b
  stop : ∀ b ∈ o', c'.Bare b
  fresh : ∀ b ∈ o', b ∈ o ∨ c.graph.block? b = none
  frame : ∀ b block, b ∉ o → c.graph.block? b = some block → c'.graph.block? b = some block
  grows : ∀ b block, b ∈ o → c.graph.block? b = some block →
    ∃ block', c'.graph.block? b = some block'
      ∧ block'.params = block.params ∧ block.body <+: block'.body
  ended : ∀ b block, c'.graph.block? b = some block → b ∈ o ∨ c.graph.block? b = none →
    b ∈ o' ∨ block.isClosed = true

/-- Every new block is entered from a block before it. -/
def Entered (c c' : Chart) : Prop :=
  ∀ b, c.graph.block? b = none → (c'.graph.block? b).isSome →
    ∃ p : BlockId, p.index < b.index ∧ c'.graph.Follows p b

/-! ## Advancing -/

namespace Advances

/-- Blocks that exist go on existing, with the same parameters, and bind no less. -/
theorem exists_block (h : Advances o c o' c') (hb : c.graph.block? b = some block) :
    ∃ block', c'.graph.block? b = some block' ∧ block'.params = block.params
      ∧ block.body <+: block'.body := by
  by_cases hmem : b ∈ o
  · exact h.grows b block hmem hb
  · exact ⟨block, h.frame b block hmem hb, rfl, List.prefix_refl _⟩

theorem boundVars_subset {block' : Block} (hparams : block'.params = block.params)
    (hbody : block.body <+: block'.body) : block.boundVars ⊆ block'.boundVars := by
  intro v hv
  rw [Block.boundVars, Block.paramVars, hparams]
  rcases List.mem_append.1 hv with hv | hv
  · exact List.mem_append_left _ hv
  · exact List.mem_append_right _ ((hbody.map Prod.fst).subset hv)

/-- What was bound at the end of a block still is. -/
theorem here (h : Advances o c o' c') (hb : c.graph.block? b = some block) (hv : c.Here b v) :
    c'.Here b v := by
  rcases hv with hv | ⟨block₁, hb₁, hv⟩
  · left
    rw [h.avail_eq b block hb]
    exact hv
  · obtain ⟨block', hb', hparams, hbody⟩ := h.exists_block hb₁
    exact .inr ⟨block', hb', boundVars_subset hparams hbody hv⟩

theorem takes (h : Advances o c o' c') {t : Target} {n : Nat} (ht : c.graph.Takes t n) :
    c'.graph.Takes t n := by
  cases t with
  | leave => exact ht
  | block t =>
    obtain ⟨block, hb, hn⟩ := ht
    obtain ⟨block', hb', hparams, -⟩ := h.exists_block hb
    exact ⟨block', hb', by rw [hn, hparams]⟩

theorem boundVars (h : Advances o c o' c') (hv : v ∈ c.graph.boundVars) :
    v ∈ c'.graph.boundVars := by
  obtain ⟨block, hmem, hv⟩ := List.mem_flatMap.1 hv
  obtain ⟨i, hi⟩ := List.mem_iff_getElem?.1 hmem
  have hb : c.graph.block? ⟨i⟩ = some block := by simpa [Graph.block?] using hi
  obtain ⟨block', hb', hparams, hbody⟩ := h.exists_block hb
  exact Graph.mem_boundVars_of_block? hb' (boundVars_subset hparams hbody hv)

/-- A branch is not taken away. -/
theorem follows (h : Advances o c o' c') {q : BlockId} (hq : c.graph.Follows q b) :
    c'.graph.Follows q b := by
  obtain ⟨block, hb, hmem⟩ := hq
  by_cases ho : q ∈ o
  · -- an open block has no branches
    obtain ⟨block₁, hb₁, hbare⟩ := h.start q ho
    rw [hb] at hb₁
    obtain rfl := Option.some.inj hb₁
    rw [Block.targets, hbare] at hmem
    cases hmem
  · exact ⟨block, h.frame q block ho hb, hmem⟩

/-- A new block of an earlier chart has a position below those that come later. -/
theorem isNone (h : Advances o c o' c') (hb : c'.graph.block? b = none) :
    c.graph.block? b = none := by
  rcases hc : c.graph.block? b with _ | block
  · rfl
  · obtain ⟨block', hb', -⟩ := h.exists_block hc
    rw [hb] at hb'
    cases hb'

/-- Nothing happens. -/
theorem refl (hstart : ∀ b ∈ o, c.Bare b) : Advances o c o c where
  vars_le := Nat.le_refl _
  avail_eq _ _ _ := rfl
  start := hstart
  stop := hstart
  fresh _ hb := .inl hb
  frame _ _ _ hb := hb
  grows _ block _ hb := ⟨block, hb, rfl, List.prefix_refl _⟩
  ended b block hb hmem := by
    rcases hmem with hmem | hnone
    · exact .inl hmem
    · rw [hb] at hnone
      cases hnone

/-- **Steps follow one another** when the second happens in blocks that the first left open. The
blocks that stay open are those that the second step leaves open and those that it does not
concern. -/
theorem trans (h : Advances o c o' c') (h' : Advances p c' p' c'') (hp : ∀ b ∈ p, b ∈ o')
    (hkept : ∀ b ∈ o', b ∈ p ∨ b ∈ o'') (hnew : ∀ b ∈ p', b ∈ o'')
    (hopen : ∀ b ∈ o'', b ∈ p' ∨ b ∈ o' ∧ b ∉ p) : Advances o c o'' c'' where
  vars_le := Nat.le_trans h.vars_le h'.vars_le
  avail_eq b block hb := by
    obtain ⟨block', hb', -⟩ := h.exists_block hb
    rw [h'.avail_eq b block' hb', h.avail_eq b block hb]
  start := h.start
  stop b hb := by
    rcases hopen b hb with hb | ⟨hb, hnot⟩
    · exact h'.stop b hb
    · obtain ⟨block, hblock, hbare⟩ := h.stop b hb
      exact ⟨block, h'.frame b block hnot hblock, hbare⟩
  fresh b hb := by
    rcases hopen b hb with hb | ⟨hb, -⟩
    · rcases h'.fresh b hb with hb | hnone
      · exact h.fresh b (hp b hb)
      · exact .inr (h.isNone hnone)
    · exact h.fresh b hb
  frame b block ho hb := by
    have hb' := h.frame b block ho hb
    refine h'.frame b block (fun hmem => ?_) hb'
    -- the second step concerns only blocks that were open or new
    rcases h.fresh b (hp b hmem) with hmem | hnone
    · exact ho hmem
    · rw [hb] at hnone
      cases hnone
  grows b block ho hb := by
    obtain ⟨block', hb', hparams, hbody⟩ := h.grows b block ho hb
    obtain ⟨block'', hb'', hparams', hbody'⟩ := h'.exists_block hb'
    exact ⟨block'', hb'', hparams'.trans hparams, hbody.trans hbody'⟩
  ended b block hb hmem := by
    rcases hc' : c'.graph.block? b with _ | block'
    · rcases h'.ended b block hb (.inr hc') with hb | hclosed
      · exact .inl (hnew b hb)
      · exact .inr hclosed
    · by_cases hpb : b ∈ p
      · rcases h'.ended b block hb (.inl hpb) with hb | hclosed
        · exact .inl (hnew b hb)
        · exact .inr hclosed
      · have hsame := h'.frame b block' hpb hc'
        rw [hb] at hsame
        obtain rfl := Option.some.inj hsame
        rcases h.ended b block hc' hmem with hb | hclosed
        · exact .inl ((hkept b hb).resolve_left hpb)
        · exact .inr hclosed

/-- A step leaves other open blocks as they are. -/
theorem beside (h : Advances o c o' c') (hbare : ∀ b ∈ p, c.Bare b) (hnot : ∀ b ∈ p, b ∉ o) :
    Advances (p ++ o) c (p ++ o') c' where
  vars_le := h.vars_le
  avail_eq := h.avail_eq
  start a ha := by
    rcases List.mem_append.1 ha with ha | ha
    · exact hbare a ha
    · exact h.start a ha
  stop a ha := by
    rcases List.mem_append.1 ha with ha | ha
    · obtain ⟨block, hb, hempty⟩ := hbare a ha
      exact ⟨block, h.frame a block (hnot a ha) hb, hempty⟩
    · exact h.stop a ha
  fresh a ha := by
    rcases List.mem_append.1 ha with ha | ha
    · exact .inl (List.mem_append_left o ha)
    · exact (h.fresh a ha).imp (List.mem_append_right p) id
  frame a block ha hb := h.frame a block (fun hmem => ha (List.mem_append_right p hmem)) hb
  grows a block _ hb := h.exists_block hb
  ended a block hb hmem := by
    have hrest : a ∈ o ∨ c.graph.block? a = none → a ∈ p ++ o'
        ∨ block.isClosed = true := fun hmem =>
      (h.ended a block hb hmem).imp (List.mem_append_right p) id
    rcases hmem with hmem | hnone
    · rcases List.mem_append.1 hmem with hmem | hmem
      · exact .inl (List.mem_append_left o' hmem)
      · exact hrest (.inl hmem)
    · exact hrest (.inr hnone)

/-- The order of the open blocks does not matter. -/
theorem congr (h : Advances o c o' c') (hmem : ∀ b, b ∈ o ↔ b ∈ p) : Advances p c o' c' where
  vars_le := h.vars_le
  avail_eq := h.avail_eq
  start b hb := h.start b ((hmem b).2 hb)
  stop := h.stop
  fresh b hb := (h.fresh b hb).imp (hmem b).1 id
  frame b block hb := h.frame b block fun ho => hb ((hmem b).1 ho)
  grows b block hb := h.grows b block ((hmem b).2 hb)
  ended b block hb hold := h.ended b block hb (hold.imp (hmem b).2 id)

end Advances

/-- New blocks of two steps are new blocks of both. -/
theorem Entered.trans (h : Entered c c') (h' : Entered c' c'') (ha : Advances p c' p' c'') :
    Entered c c'' := by
  intro b hnone hsome
  rcases hc' : c'.graph.block? b with _ | block
  · exact h' b hc' hsome
  · obtain ⟨q, hlt, hfollows⟩ := h b hnone (by rw [hc']; rfl)
    exact ⟨q, hlt, ha.follows hfollows⟩

/-- **Soundness is kept** when the blocks that changed or are new keep their promises. -/
theorem Sound.advance (h : c.Sound) (ha : Advances o c o' c') (hcoherent : c'.graph.Coherent)
    (hbound : ∀ b, c.graph.block? b = none → ∀ v, c'.avail b v → v ∈ c'.graph.boundVars)
    (hfits : ∀ b block, b ∈ o ∨ c.graph.block? b = none → c'.graph.block? b = some block →
      c'.Fits b block) : c'.Sound := by
  have hfirst : ∃ block, c.graph.block? .entry = some block :=
    Option.isSome_iff_exists.1 ((Graph.block?_isSome _ _).2 h.size_pos)
  refine ⟨hcoherent, fun b v hv => ?_, fun v hv => ?_, ?_, fun b block hb => ?_⟩
  · rcases hc : c.graph.block? b with _ | block
    · exact hbound b hc v hv
    · rw [ha.avail_eq b block hc] at hv
      exact ha.boundVars (h.bound b v hv)
  · obtain ⟨block, hb⟩ := hfirst
    rw [ha.avail_eq _ block hb] at hv
    exact h.entry v hv
  · obtain ⟨block, hb⟩ := hfirst
    obtain ⟨block', hb', -⟩ := ha.exists_block hb
    exact Graph.lt_size_of_block? hb'
  · by_cases hmem : b ∈ o ∨ c.graph.block? b = none
    · exact hfits b block hmem hb
    · -- an old block that did not change branches to old blocks only
      obtain ⟨block₁, hb₁⟩ := Option.ne_none_iff_exists'.1 fun hnone => hmem (.inr hnone)
      have hsame := ha.frame b block₁ (fun ho => hmem (.inl ho)) hb₁
      rw [hb] at hsame
      obtain rfl := Option.some.inj hsame
      have hold := h.fits b block hb₁
      have havail := ha.avail_eq b block hb₁
      refine ⟨?_, ?_, fun br hbr => ha.takes (hold.balanced br hbr), ?_, hold.conditional⟩
      · rw [havail]
        exact hold.statement
      · rw [havail]
        exact hold.branch
      · intro br hbr t ht v hv
        have htakes := hold.balanced br hbr
        rw [ht] at htakes
        obtain ⟨next, hnext, -⟩ := htakes
        rw [ha.avail_eq t next hnext] at hv
        rw [havail]
        exact hold.edge br hbr t ht v hv

/-! ## Going on elsewhere

Where drafting goes on, and with which names, is no matter of the graph. -/

/-- The chart with the next statement going elsewhere. -/
def moved (c : Chart) (block : BlockId) (env : Bindings) (closed : Bool) : Chart :=
  { c with block, env, closed }

variable {block : BlockId} {env : Bindings} {closed : Bool}

theorem Sound.moved (h : c.Sound) : (c.moved block env closed).Sound :=
  ⟨h.coherent, h.bound, h.entry, h.size_pos, fun b block hb =>
    have hfits := h.fits b block hb
    ⟨hfits.statement, hfits.branch, hfits.balanced, hfits.edge, hfits.conditional⟩⟩

theorem Advances.moved (h : Advances o c o' c') : Advances o c o' (c'.moved block env closed) :=
  ⟨h.vars_le, h.avail_eq, h.start, h.stop, h.fresh, h.frame, h.grows, h.ended⟩

theorem Advances.of_moved (h : Advances o (c.moved block env closed) o' c') : Advances o c o' c' :=
  ⟨h.vars_le, h.avail_eq, h.start, h.stop, h.fresh, h.frame, h.grows, h.ended⟩

end Chart

end Interpose
