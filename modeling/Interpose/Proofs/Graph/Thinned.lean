import Interpose.Proofs.Graph.Arising
import Interpose.Proofs.Graph.Outline

/-!
# Graphs without their unreached blocks

A graph is *thinned* to another when the other has its reached blocks and no more, in their order,
and when a branch goes to the block that its old target has become. What is said about walks carries
over from one to the other: every walk of the thinned graph is a walk of the first through the same
blocks, and the other way round. So the thinned graph is in order where the first is, and all its
blocks are reached.

Which numbers the blocks get is a matter of `Graph.reachable` alone, and `prune` thins in this way.
-/

set_option autoImplicit false

namespace Interpose

namespace Graph

/-- The block `b` is reached, and `new` is its position among the reached blocks. -/
def KeptAs (g : Graph) (b new : BlockId) : Prop := g.reachable[new.index]? = some b

/-- A target with the position of its block among the reached ones. -/
inductive Redirects (g : Graph) : Target → Target → Prop
  | block {t t' : BlockId} : g.KeptAs t t' → Redirects g (.block t) (.block t')
  | leave : Redirects g .leave .leave

/-- The branches differ in nothing but the number of the block that they go to. -/
structure SameBranch (g : Graph) (br br' : Branch) : Prop where
  target : g.Redirects br.target br'.target
  condition : br'.condition = br.condition
  args : br'.args = br.args

/-- The blocks differ in nothing but the numbers of the blocks that their branches go to. -/
structure SameBlock (g : Graph) (block block' : Block) : Prop where
  params : block'.params = block.params
  body : block'.body = block.body
  branches : List.Forall₂ g.SameBranch block.branches block'.branches

/-- A site with the position of its block among the reached ones. What an unreached block has bound
is deleted. -/
inductive Moves (g : Graph) : Site → Site → Prop
  | param {b new : BlockId} {i : Nat} : g.KeptAs b new → Moves g (.param b i) (.param new i)
  | statement {b new : BlockId} {i : Nat} :
    g.KeptAs b new → Moves g (.statement b i) (.statement new i)
  | removed {site : Site} {b : BlockId} :
    site.block? = some b → b ∉ g.reachable → Moves g site .deleted
  | deleted : Moves g .deleted .deleted

/-- The blocks of the second graph are the reached blocks of the first, in their order. -/
structure Thinned (g g' : Graph) : Prop where
  size : g'.blocks.size = g.reachable.length
  block : ∀ b new, g.KeptAs b new → ∃ block block', g.block? b = some block
    ∧ g'.block? new = some block' ∧ g.SameBlock block block'

variable {g g' : Graph} {b new : BlockId}

/-! ## Positions among the reached blocks -/

/-- The reached blocks are listed in the order that they have. -/
theorem reachable_sublist (g : Graph) : g.reachable.Sublist g.blockIds := List.filter_sublist

namespace KeptAs

theorem mem (h : g.KeptAs b new) : b ∈ g.reachable := List.mem_of_getElem? h

theorem lt (h : g.KeptAs b new) : new.index < g.reachable.length :=
  (List.getElem?_eq_some_iff.1 h).1

/-- A position is that of one block. -/
theorem block_unique {c : BlockId} (h : g.KeptAs b new) (hc : g.KeptAs c new) : b = c :=
  Option.some.inj (h.symm.trans hc)

/-- A block has one position. -/
theorem unique {new' : BlockId} (h : g.KeptAs b new) (h' : g.KeptAs b new') : new = new' := by
  have hindex : new.index = new'.index := by
    refine (List.getElem?_inj h.lt g.nodup_reachable).1 ?_
    rw [show g.reachable[new.index]? = some b from h,
      show g.reachable[new'.index]? = some b from h']
  cases new
  cases new'
  exact congrArg BlockId.mk hindex

end KeptAs

/-- A reached block has a position. -/
theorem exists_keptAs (h : b ∈ g.reachable) : ∃ new, g.KeptAs b new := by
  obtain ⟨i, hi⟩ := List.mem_iff_getElem?.1 h
  exact ⟨⟨i⟩, hi⟩

/-- A position in range is that of some block. -/
theorem exists_keptAs_of_lt (h : new.index < g.reachable.length) : ∃ b, g.KeptAs b new :=
  ⟨_, List.getElem?_eq_getElem h⟩

/-- The entry is the first of the reached blocks. -/
theorem keptAs_entry (h : 0 < g.blocks.size) : g.KeptAs .entry .entry := by
  have hentry : BlockId.entry ∈ g.reachable := (mem_reachable g _).2 ⟨h, reached_entry⟩
  obtain ⟨n, hn⟩ : ∃ n, g.blocks.size = n + 1 := ⟨g.blocks.size - 1, by omega⟩
  have hids : g.blockIds = .entry :: (List.range n).map fun i => ⟨i + 1⟩ := by
    rw [blockIds, hn, List.range_succ_eq_map, List.map_cons, List.map_map]
    rfl
  have hfound := (List.mem_filter.1 hentry).2
  rw [KeptAs, reachable, hids, List.filter_cons_of_pos hfound]
  rfl

/-! ## Blocks that differ in their targets -/

namespace SameBranch

variable {br br' : Branch} {t t' : BlockId}

/-- A branch that goes to a block has come from one that goes to the same block. -/
theorem exists_source (h : g.SameBranch br br') (ht : br'.block? = some t') :
    ∃ t, g.KeptAs t t' ∧ br.block? = some t := by
  obtain ⟨goal, condition, args⟩ := br
  obtain ⟨goal', condition', args'⟩ := br'
  have hgoal : g.Redirects goal goal' := h.target
  cases hgoal with
  | leave => cases ht
  | @block t s hkept =>
    obtain rfl := Option.some.inj ht
    exact ⟨t, hkept, rfl⟩

/-- A branch that goes to a block becomes one that goes to the same block. -/
theorem exists_result (h : g.SameBranch br br') (ht : br.block? = some t) :
    ∃ t', g.KeptAs t t' ∧ br'.block? = some t' := by
  obtain ⟨goal, condition, args⟩ := br
  obtain ⟨goal', condition', args'⟩ := br'
  have hgoal : g.Redirects goal goal' := h.target
  cases hgoal with
  | leave => cases ht
  | @block s t' hkept =>
    obtain rfl := Option.some.inj ht
    exact ⟨t', hkept, rfl⟩

/-- What a branch reads does not depend on where it goes. -/
theorem uses (h : g.SameBranch br br') : br'.uses = br.uses := by
  rw [Branch.uses, Branch.uses, h.condition, h.args]

end SameBranch

/-- In related lists every element of the first has its counterpart in the second. -/
theorem exists_mem_of_forall₂ {α β : Type} {R : α → β → Prop} {l : List α} {l' : List β}
    (h : List.Forall₂ R l l') {a : α} (ha : a ∈ l) : ∃ b ∈ l', R a b := by
  induction h with
  | nil => exact absurd ha List.not_mem_nil
  | @cons x y l l' hxy _ ih =>
    rcases List.mem_cons.1 ha with rfl | ha
    · exact ⟨y, List.mem_cons_self, hxy⟩
    · obtain ⟨b, hb, hab⟩ := ih ha
      exact ⟨b, List.mem_cons_of_mem y hb, hab⟩

namespace SameBlock

variable {block block' : Block}

theorem paramVars (h : g.SameBlock block block') : block'.paramVars = block.paramVars := by
  rw [Block.paramVars, Block.paramVars, h.params]

theorem boundVars (h : g.SameBlock block block') : block'.boundVars = block.boundVars := by
  rw [Block.boundVars, Block.boundVars, h.paramVars, Block.bodyVars, Block.bodyVars, h.body]

theorem boundAt (h : g.SameBlock block block') (place : Option Nat) :
    block'.boundAt place = block.boundAt place := by
  cases place with
  | none => exact h.boundVars
  | some i => rw [Block.boundAt, Block.boundAt, h.paramVars, Block.bodyVars, Block.bodyVars, h.body]

theorem conditions (h : g.SameBlock block block') :
    block'.branches.map Branch.isConditional = block.branches.map Branch.isConditional := by
  have hpairs := h.branches.imp fun br br' hbr => (congrArg Option.isSome hbr.condition).symm
  have hmaps := List.forall₂_map_right_iff.2 (List.forall₂_map_left_iff.2 hpairs)
  rw [List.forall₂_eq_eq_eq] at hmaps
  exact hmaps.symm

/-- Every branch has the one that has become of it. -/
theorem exists_result (h : g.SameBlock block block') {br : Branch} (hbr : br ∈ block.branches) :
    ∃ br' ∈ block'.branches, g.SameBranch br br' := exists_mem_of_forall₂ h.branches hbr

/-- Every branch has the one that it comes from. -/
theorem exists_source (h : g.SameBlock block block') {br' : Branch} (hbr' : br' ∈ block'.branches) :
    ∃ br ∈ block.branches, g.SameBranch br br' :=
  exists_mem_of_forall₂ (R := flip g.SameBranch) h.branches.flip hbr'

end SameBlock

/-! ## Walks through both graphs -/

namespace Thinned

/-- Every block of the thinned graph is one of the first. -/
theorem exists_block (h : g.Thinned g') {block' : Block} (hb : g'.block? new = some block') :
    ∃ b block, g.KeptAs b new ∧ g.block? b = some block ∧ g.SameBlock block block' := by
  obtain ⟨b, hkept⟩ := exists_keptAs_of_lt (h.size ▸ lt_size_of_block? hb)
  obtain ⟨block, block'', hblock, hb', hsame⟩ := h.block b new hkept
  obtain rfl := Option.some.inj (hb'.symm.trans hb)
  exact ⟨b, block, hkept, hblock, hsame⟩

/-- Every reached block is one of the thinned graph. -/
theorem exists_block' (h : g.Thinned g') {block : Block} (hb : g.block? b = some block)
    (hkept : g.KeptAs b new) :
    ∃ block', g'.block? new = some block' ∧ g.SameBlock block block' := by
  obtain ⟨block₀, block', hblock, hb', hsame⟩ := h.block b new hkept
  obtain rfl := Option.some.inj (hblock.symm.trans hb)
  exact ⟨block', hb', hsame⟩

/-- What follows in the thinned graph has followed in the first. -/
theorem exists_follows (h : g.Thinned g') {c' : BlockId} (hkept : g.KeptAs b new)
    (hc : g'.Follows new c') : ∃ c, g.KeptAs c c' ∧ g.Follows b c := by
  obtain ⟨block', hb', hmem⟩ := hc
  obtain ⟨b₀, block, hkept₀, hblock, hsame⟩ := h.exists_block hb'
  obtain rfl := hkept.block_unique hkept₀
  obtain ⟨br', hbr', htarget'⟩ := List.mem_filterMap.1 hmem
  obtain ⟨br, hbr, hsamebr⟩ := hsame.exists_source hbr'
  obtain ⟨c, hkeptc, htarget⟩ := hsamebr.exists_source htarget'
  exact ⟨c, hkeptc, block, hblock, List.mem_filterMap.2 ⟨br, hbr, htarget⟩⟩

/-- What follows in the first graph follows in the thinned one. -/
theorem follows (h : g.Thinned g') {c c' : BlockId} (hkept : g.KeptAs b new)
    (hkeptc : g.KeptAs c c') (hc : g.Follows b c) : g'.Follows new c' := by
  obtain ⟨block, hblock, hmem⟩ := hc
  obtain ⟨block', hb', hsame⟩ := h.exists_block' hblock hkept
  obtain ⟨br, hbr, htarget⟩ := List.mem_filterMap.1 hmem
  obtain ⟨br', hbr', hsamebr⟩ := hsame.exists_result hbr
  obtain ⟨c'', hkeptc', htarget'⟩ := hsamebr.exists_result htarget
  obtain rfl := hkeptc.unique hkeptc'
  exact ⟨block', hb', List.mem_filterMap.2 ⟨br', hbr', htarget'⟩⟩

/-- **A walk of the thinned graph is a walk of the first** through the same blocks. -/
theorem exists_walk (h : g.Thinned g') (hpos : 0 < g.blocks.size) {before' : List BlockId}
    (hw : g'.Walk new before') :
    ∃ b before, g.KeptAs b new ∧ g.Walk b before ∧ List.Forall₂ g.KeptAs before before' := by
  induction hw with
  | start => exact ⟨.entry, [], keptAs_entry hpos, .start, .nil⟩
  | @step b' c' before' _ hfollows ih =>
    obtain ⟨b, before, hkept, hw, hbefore⟩ := ih
    obtain ⟨c, hkeptc, hbc⟩ := h.exists_follows hkept hfollows
    exact ⟨c, b :: before, hkeptc, hw.step hbc, .cons hkept hbefore⟩

/-- A walk of the first graph leads to the same block in the thinned one. -/
theorem reached (h : g.Thinned g') (hpos : 0 < g.blocks.size) {before : List BlockId}
    (hw : g.Walk b before) : ∀ new, g.KeptAs b new → g'.Reached new := by
  induction hw with
  | start =>
    intro new hkept
    obtain rfl := (keptAs_entry hpos).unique hkept
    exact reached_entry
  | @step b c before hw hbc ih =>
    intro c' hkeptc
    -- the block before is on a walk itself, so it has been kept
    obtain ⟨block, hblock, -⟩ := id hbc
    obtain ⟨new, hkept⟩ :=
      exists_keptAs ((mem_reachable g b).2 ⟨lt_size_of_block? hblock, before, hw⟩)
    exact (ih new hkept).follow (h.follows hkept hkeptc hbc)

/-- **Every block of the thinned graph is reached.** -/
theorem all_reached (h : g.Thinned g') (hpos : 0 < g.blocks.size) :
    ∀ new, new.index < g'.blocks.size → new ∈ g'.reachable := by
  intro new hnew
  obtain ⟨b, hkept⟩ := exists_keptAs_of_lt (h.size ▸ hnew)
  obtain ⟨-, before, hw⟩ := (mem_reachable g b).1 hkept.mem
  exact (mem_reachable g' new).2 ⟨hnew, h.reached hpos hw new hkept⟩

/-! ## Order -/

/-- What the blocks of a walk bind is bound by the same blocks of the thinned graph. -/
theorem boundIn_subset (h : g.Thinned g') {before before' : List BlockId}
    (hbefore : List.Forall₂ g.KeptAs before before') : g.boundIn before ⊆ g'.boundIn before' := by
  induction hbefore with
  | nil => exact List.Subset.refl _
  | @cons b new before before' hkept _ ih =>
    obtain ⟨block, block', hblock, hb', hsame⟩ := h.block b new hkept
    intro v hv
    rw [boundIn, List.flatMap_cons, hblock, Option.elim_some, ← hsame.boundVars] at hv
    rw [boundIn, List.flatMap_cons, hb', Option.elim_some]
    exact List.mem_append.2 ((List.mem_append.1 hv).imp_right (@ih v))

/-- A block of the thinned graph binds a variable exactly if a reached block of the first does. -/
theorem mem_boundVars_iff (h : g.Thinned g') {v : Variable} :
    v ∈ g'.boundVars ↔ ∃ b block, b ∈ g.reachable ∧ g.block? b = some block
      ∧ v ∈ block.boundVars := by
  rw [mem_boundVars_iff_block?]
  constructor
  · rintro ⟨new, block', hb', hv⟩
    obtain ⟨b, block, hkept, hblock, hsame⟩ := h.exists_block hb'
    exact ⟨b, block, hkept.mem, hblock, hsame.boundVars ▸ hv⟩
  · rintro ⟨b, block, hb, hblock, hv⟩
    obtain ⟨new, hkept⟩ := exists_keptAs hb
    obtain ⟨block', hb', hsame⟩ := h.exists_block' hblock hkept
    exact ⟨new, block', hb', hsame.boundVars.symm ▸ hv⟩

/-- A target of a reached block takes as many arguments as before. -/
theorem takes (h : g.Thinned g') {t t' : Target} (ht : g.Redirects t t') {n : Nat}
    (htakes : g.Takes t n) : g'.Takes t' n := by
  cases ht with
  | leave => exact htakes
  | block hkept =>
    obtain ⟨block, hblock, rfl⟩ := htakes
    obtain ⟨block', hb', hsame⟩ := h.exists_block' hblock hkept
    exact ⟨block', hb', by rw [hsame.params]⟩

/-- What a statement of the thinned graph reads is bound on every walk through it. -/
theorem bound_statement (h : g.Thinned g') (hpos : 0 < g.blocks.size) (hg : g.WellFormed)
    {block' : Block} {before' : List BlockId} (hb' : g'.block? new = some block')
    (hw' : g'.Walk new before') {i : Nat} {w v : Variable} {s : Statement}
    (hi : block'.body[i]? = some (w, s)) (hv : v ∈ s.uses) :
    v ∈ g'.boundIn before' ∨ v ∈ block'.boundAt (some i) := by
  obtain ⟨b, before, hkept, hw, hbefore⟩ := h.exists_walk hpos hw'
  obtain ⟨b₀, block, hkept₀, hblock, hsame⟩ := h.exists_block hb'
  obtain rfl := hkept.block_unique hkept₀
  rw [hsame.body] at hi
  rw [hsame.boundAt]
  exact (hg.statement b block before hblock hw i w s hi v hv).imp_left
    fun hin => h.boundIn_subset hbefore hin

/-- What a branch of the thinned graph reads is bound on every walk through it. -/
theorem bound_branch (h : g.Thinned g') (hpos : 0 < g.blocks.size) (hg : g.WellFormed)
    {block' : Block} {before' : List BlockId} (hb' : g'.block? new = some block')
    (hw' : g'.Walk new before') {br' : Branch} {v : Variable} (hbr' : br' ∈ block'.branches)
    (hv : v ∈ br'.uses) : v ∈ g'.boundIn before' ∨ v ∈ block'.boundAt none := by
  obtain ⟨b, before, hkept, hw, hbefore⟩ := h.exists_walk hpos hw'
  obtain ⟨b₀, block, hkept₀, hblock, hsame⟩ := h.exists_block hb'
  obtain rfl := hkept.block_unique hkept₀
  obtain ⟨br, hbr, hsamebr⟩ := hsame.exists_source hbr'
  rw [hsamebr.uses] at hv
  rw [hsame.boundAt]
  exact (hg.branch b block before hblock hw br hbr v hv).imp_left
    fun hin => h.boundIn_subset hbefore hin

/-- **A graph in order stays in order** without its unreached blocks. What is bound on every walk to
a block is bound on every walk to it through the thinned graph, for these are no more. -/
theorem wellFormed (h : g.Thinned g') (hpos : 0 < g.blocks.size) (hg : g.WellFormed) :
    g'.WellFormed where
  ends new block' hb' := by
    obtain ⟨b, block, -, hblock, hsame⟩ := h.exists_block hb'
    exact ends_of_conditions hsame.conditions (hg.ends b block hblock)
  balanced new block' hb' br' hbr' := by
    obtain ⟨b, block, -, hblock, hsame⟩ := h.exists_block hb'
    obtain ⟨br, hbr, hsamebr⟩ := hsame.exists_source hbr'
    rw [hsamebr.args]
    exact h.takes hsamebr.target (hg.balanced b block hblock br hbr)
  toWellUsed := wellUsed_of_reached
    (fun new block' hb' =>
      ((mem_reachable g' new).1 (h.all_reached hpos new (lt_size_of_block? hb'))).2)
    (fun _ _ _ hb' hw' _ _ _ hi _ hv => h.bound_statement hpos hg hb' hw' hi hv)
    (fun _ _ _ hb' hw' _ hbr' _ hv => h.bound_branch hpos hg hb' hw' hbr' hv)

/-! ## The table -/

/-- **Variables keep their numbers**, and their sites go where their blocks go. -/
theorem moves (h : g.Thinned g') (hg : g.Coherent) (hg' : g'.Coherent)
    (hcount : g'.varCount = g.varCount) (v : Variable) :
    Option.Rel g.Moves (g.site? v) (g'.site? v) := by
  have hlost : v ∉ g'.boundVars → v.index < g.varCount →
      g'.site? v = some .deleted := fun hunbound hlt =>
    (hg'.site_deleted_iff v).2 ⟨hcount.symm ▸ hlt, hunbound⟩
  rcases hv : g.site? v with _ | site
  · -- a number that was not handed out is not handed out by pruning
    have hle : g.varCount ≤ v.index := Array.getElem?_eq_none_iff.1 hv
    rw [← hcount] at hle
    rw [show g'.site? v = none from Array.getElem?_eq_none hle]
    exact .none
  have hlt : v.index < g.varCount := (Array.getElem?_eq_some_iff.1 hv).1
  rcases Row.eq_site site with rfl | ⟨r, i, rfl⟩
  · have hunbound : v ∉ g'.boundVars := by
      intro hmem
      obtain ⟨b, block, -, hblock, hmem⟩ := h.mem_boundVars_iff.1 hmem
      exact ((hg.site_deleted_iff v).1 hv).2 (mem_boundVars_of_block? hblock hmem)
    rw [hlost hunbound hlt]
    exact .some .deleted
  by_cases hlive : r.block ∈ g.reachable
  · obtain ⟨new, hkept⟩ := exists_keptAs hlive
    obtain ⟨block, block', hblock, hb', hsame⟩ := h.block _ new hkept
    have hrow := (hg v r i).1 hv
    cases r with
    | params b =>
      -- the block is kept with its rows, so that the position stays and only the block has another
      -- number
      rw [row_params_of_block? (b := b) hblock, ← hsame.paramVars,
        ← row_params_of_block? hb'] at hrow
      rw [show g'.site? v = some (.param new i) from (hg' v (.params new) i).2 hrow]
      exact .some (.param hkept)
    | body b =>
      have hvars : block'.bodyVars = block.bodyVars := congrArg (List.map Prod.fst) hsame.body
      rw [row_body_of_block? (b := b) hblock, ← hvars, ← row_body_of_block? hb'] at hrow
      rw [show g'.site? v = some (.statement new i) from (hg' v (.body new) i).2 hrow]
      exact .some (.statement hkept)
  · have hunbound : v ∉ g'.boundVars := by
      intro hmem
      obtain ⟨b, block, hb, hblock, hmem⟩ := h.mem_boundVars_iff.1 hmem
      exact hlive ((hg.mem_boundVars_iff_of_site hv hblock).1 hmem ▸ hb)
    rw [hlost hunbound hlt]
    refine .some (.removed (b := r.block) ?_ hlive)
    cases r <;> rfl

end Thinned

end Graph

end Interpose
