import Interpose.Proofs.Graph.WellFormed

/-!
# What the check of a graph looks at

Whether a graph is in order does not depend on what its statements do, nor on which constants and
globals stand in them. It depends on the *outline* of the blocks: what they bind, what is read
where, and how they are left. Two graphs with the same outlines are both in order or both not, and
the same blocks are reached.

Calls that are routed through a hook keep the outline, for a hook is no variable.
-/

set_option autoImplicit false

namespace Interpose

namespace Block

/-- What the statements bind and read. -/
def readings (block : Block) : List (Variable × List Variable) :=
  block.body.map fun e => (e.1, e.2.uses)

/-- Where the branches go, when, with how many arguments, and what they read. -/
def exits (block : Block) : List (Target × Option Variable × Nat × List Variable) :=
  block.branches.map fun br => (br.target, br.condition, br.args.length, br.uses)

/-- The block without what its statements do. -/
def outline (block : Block) : List (Variable × Ty) × List (Variable × List Variable)
    × List (Target × Option Variable × Nat × List Variable) :=
  (block.params, block.readings, block.exits)

/-- What a block reads shows in its readings and exits. -/
theorem mem_uses {block : Block} {v : Variable} : v ∈ block.uses
    ↔ (∃ e ∈ block.readings, v ∈ e.2) ∨ ∃ x ∈ block.exits, v ∈ x.2.2.2 := by
  simp only [uses, readings, exits, List.mem_append, List.mem_flatMap, List.mem_map,
    exists_exists_and_eq_and]

variable {block block' : Block}

theorem bodyVars_of_readings (h : block'.readings = block.readings) :
    block'.bodyVars = block.bodyVars := by
  have hfst := congrArg (List.map Prod.fst) h
  simpa [readings, bodyVars, Function.comp_def] using hfst

/-- Blocks with the same outline have bound the same at every place. -/
theorem boundAt_of_outline (h : block'.outline = block.outline) (place : Option Nat) :
    block'.boundAt place = block.boundAt place := by
  simp only [outline, Prod.mk.injEq] at h
  cases place with
  | none => simp only [boundAt, boundVars, paramVars, h.1, bodyVars_of_readings h.2.1]
  | some i => simp only [boundAt, paramVars, h.1, bodyVars_of_readings h.2.1]

/-- A branch has a branch of the other block with the same exit, which is the last if it is the
last. -/
theorem exists_branch_of_exits (h : block'.exits = block.exits) {br : Branch}
    (hbr : br ∈ block'.branches) :
    ∃ br₀ ∈ block.branches, br.target = br₀.target ∧ br.condition = br₀.condition
      ∧ br.args.length = br₀.args.length ∧ br.uses = br₀.uses := by
  have hmem := List.mem_map_of_mem (f := fun br : Branch =>
    (br.target, br.condition, br.args.length, br.uses)) hbr
  rw [← exits, h] at hmem
  obtain ⟨br₀, hbr₀, heq⟩ := List.mem_map.1 hmem
  simp only [Prod.mk.injEq] at heq
  exact ⟨br₀, hbr₀, heq.1.symm, heq.2.1.symm, heq.2.2.1.symm, heq.2.2.2.symm⟩

end Block

namespace Graph

variable {g g' : Graph}

/-! ## Graphs that are related block by block -/

theorem mem_boundVars_iff_block? {v : Variable} :
    v ∈ g.boundVars ↔ ∃ b block, g.block? b = some block ∧ v ∈ block.boundVars := by
  constructor
  · intro hv
    obtain ⟨r, hr⟩ := (Coherent.mem_boundVars_iff g v).1 hv
    obtain ⟨block, hb, hv⟩ := mem_row hr
    exact ⟨_, block, hb, hv⟩
  · rintro ⟨b, block, hb, hv⟩
    exact mem_boundVars_of_block? hb hv

/-- Where no block is lost and none binds less, nothing that was bound is lost. -/
theorem boundVars_subset_of_blocks (h : ∀ b block, g.block? b = some block →
      ∃ block', g'.block? b = some block' ∧ block.boundVars ⊆ block'.boundVars) :
    g.boundVars ⊆ g'.boundVars := by
  intro v hv
  obtain ⟨b, block, hb, hv⟩ := mem_boundVars_iff_block?.1 hv
  obtain ⟨block', hb', hsub⟩ := h b block hb
  exact mem_boundVars_of_block? hb' (hsub hv)

/-- Where no block is lost and none takes another number of arguments, branches stay balanced. -/
theorem Takes.of_blocks (h : ∀ b block, g.block? b = some block →
      ∃ block', g'.block? b = some block' ∧ block'.params.length = block.params.length)
    {t : Target} {n : Nat} (ht : g.Takes t n) : g'.Takes t n := by
  cases t with
  | leave => exact ht
  | block b =>
    obtain ⟨block, hb, rfl⟩ := ht
    obtain ⟨block', hb', hlength⟩ := h b block hb
    exact ⟨block', hb', hlength.symm⟩

/-! ## Graphs with the same outline -/

/-- The graphs have the same blocks up to what the statements do. -/
def SameOutline (g g' : Graph) : Prop :=
  ∀ b, (g'.block? b).map Block.outline = (g.block? b).map Block.outline

namespace SameOutline

theorem symm (h : g.SameOutline g') : g'.SameOutline g := fun b => (h b).symm

/-- Every block has its counterpart. -/
theorem exists_block (h : g.SameOutline g') {b : BlockId} {block : Block}
    (hb : g.block? b = some block) :
    ∃ block', g'.block? b = some block' ∧ block'.outline = block.outline := by
  have hmap := h b
  rw [hb] at hmap
  exact Option.map_eq_some_iff.1 hmap

theorem size_blocks (h : g.SameOutline g') : g'.blocks.size = g.blocks.size := by
  have hlt : ∀ {g₁ g₂ : Graph}, g₁.SameOutline g₂ → ∀ i, i < g₁.blocks.size →
      i < g₂.blocks.size := by
    intro g₁ g₂ hsame i hi
    obtain ⟨block, hb⟩ := Option.isSome_iff_exists.1 ((block?_isSome g₁ ⟨i⟩).2 hi)
    obtain ⟨block', hb', -⟩ := hsame.exists_block hb
    exact lt_size_of_block? hb'
  have hle := hlt h g'.blocks.size
  have hge := hlt h.symm g.blocks.size
  omega

theorem boundVars_subset (h : g.SameOutline g') : g.boundVars ⊆ g'.boundVars := by
  refine boundVars_subset_of_blocks fun b block hb => ?_
  obtain ⟨block', hb', houtline⟩ := h.exists_block hb
  refine ⟨block', hb', ?_⟩
  have hbound : block'.boundVars = block.boundVars := Block.boundAt_of_outline houtline none
  exact fun v hv => hbound ▸ hv

theorem takes (h : g.SameOutline g') {t : Target} {n : Nat} (ht : g.Takes t n) : g'.Takes t n := by
  refine ht.of_blocks fun b block hb => ?_
  obtain ⟨block', hb', houtline⟩ := h.exists_block hb
  exact ⟨block', hb', congrArg (fun o => o.1.length) houtline⟩

theorem boundIn (h : g.SameOutline g') (bs : List BlockId) : g.boundIn bs ⊆ g'.boundIn bs := by
  intro v hv
  obtain ⟨b, hmem, block, hb, hv⟩ := mem_boundIn.1 hv
  obtain ⟨block', hb', houtline⟩ := h.exists_block hb
  have hbound : block'.boundVars = block.boundVars := Block.boundAt_of_outline houtline none
  exact mem_boundIn.2 ⟨b, hmem, block', hb', hbound ▸ hv⟩

theorem follows (h : g.SameOutline g') {b c : BlockId} (hbc : g.Follows b c) : g'.Follows b c := by
  obtain ⟨block, hb, hc⟩ := hbc
  obtain ⟨block', hb', houtline⟩ := h.exists_block hb
  refine ⟨block', hb', ?_⟩
  obtain ⟨br, hbr, hbr'⟩ := List.mem_filterMap.1 hc
  obtain ⟨br', hmem, htarget, -⟩ :=
    Block.exists_branch_of_exits (congrArg (fun o => o.2.2) houtline.symm) hbr
  refine List.mem_filterMap.2 ⟨br', hmem, ?_⟩
  rw [← hbr', Branch.block?, Branch.block?, htarget]

theorem walk (h : g.SameOutline g') {b : BlockId} {before : List BlockId} (hw : g.Walk b before) :
    g'.Walk b before := by
  induction hw with
  | start => exact .start
  | step _ hbc ih => exact ih.step (h.follows hbc)

theorem mem_reachable (h : g.SameOutline g') {b : BlockId} (hb : b ∈ g.reachable) :
    b ∈ g'.reachable := by
  obtain ⟨hlt, before, hw⟩ := (Graph.mem_reachable g b).1 hb
  exact (Graph.mem_reachable g' b).2 ⟨h.size_blocks ▸ hlt, before, h.walk hw⟩

end SameOutline

/-- Whether branches end in their only one without a condition is a matter of which of them have
conditions. -/
theorem ends_of_conditions {branches branches' : List Branch}
    (hsame : branches'.map Branch.isConditional = branches.map Branch.isConditional)
    (h : ∃ front last, branches = front ++ [last] ∧ last.condition = none
      ∧ ∀ br ∈ front, br.condition ≠ none) :
    ∃ front last, branches' = front ++ [last] ∧ last.condition = none
      ∧ ∀ br ∈ front, br.condition ≠ none := by
  obtain ⟨front, last, rfl, hlast, hfront⟩ := h
  rw [List.map_append, List.map_singleton] at hsame
  obtain ⟨front', tail, rfl, hfront', htail⟩ := List.map_eq_append_iff.1 hsame
  obtain ⟨last', rfl, hlast'⟩ := List.map_eq_singleton_iff.1 htail
  have hiff : ∀ {br br₀ : Branch}, br.isConditional = br₀.isConditional →
      (br.condition = none ↔ br₀.condition = none) := by
    intro br br₀ heq
    rw [← Option.isNone_iff_eq_none, ← Option.isNone_iff_eq_none, ← Option.not_isSome,
      ← Option.not_isSome]
    exact iff_of_eq (congrArg (fun c => (!c) = true) heq)
  refine ⟨front', last', rfl, (hiff hlast').2 hlast, fun br hbr hnone => ?_⟩
  obtain ⟨br₀, hbr₀, heq⟩ :=
    List.mem_map.1 (hfront' ▸ List.mem_map_of_mem (f := Branch.isConditional) hbr)
  exact hfront br₀ hbr₀ ((hiff heq).2 hnone)

/-- A graph with the outline of a graph in order is in order. -/
theorem WellFormed.of_outline (h : g.WellFormed) (hsame : g.SameOutline g') : g'.WellFormed where
  ends b block' hb' := by
    obtain ⟨block, hb, houtline⟩ := hsame.symm.exists_block hb'
    have hexits : block'.exits = block.exits := congrArg (fun o => o.2.2) houtline.symm
    have hconditions := congrArg (List.map fun e => e.2.1.isSome) hexits
    rw [Block.exits, Block.exits, List.map_map, List.map_map] at hconditions
    exact ends_of_conditions hconditions (h.ends b block hb)
  balanced b block' hb' br hbr := by
    obtain ⟨block, hb, houtline⟩ := hsame.symm.exists_block hb'
    obtain ⟨br₀, hbr₀, htarget, -, hlength, -⟩ :=
      Block.exists_branch_of_exits (congrArg (fun o => o.2.2) houtline.symm) hbr
    rw [htarget, hlength]
    exact hsame.takes (h.balanced b block hb br₀ hbr₀)
  bound b block' hb' v hv := by
    obtain ⟨block, hb, houtline⟩ := hsame.symm.exists_block hb'
    simp only [Block.outline, Prod.mk.injEq] at houtline
    rw [Block.mem_uses, ← houtline.2.1, ← houtline.2.2, ← Block.mem_uses] at hv
    exact hsame.boundVars_subset (h.bound b block hb v hv)
  statement b block' before hb' hw i w s hi v hv := by
    obtain ⟨block, hb, houtline⟩ := hsame.symm.exists_block hb'
    have hreading : block'.readings[i]? = some (w, s.uses) := by
      rw [Block.readings, List.getElem?_map, hi]
      rfl
    -- what a statement reads is all that the outline keeps of it
    have hreadings : block.readings = block'.readings := congrArg (fun o => o.2.1) houtline
    rw [← hreadings, Block.readings, List.getElem?_map] at hreading
    obtain ⟨⟨w₀, s₀⟩, hi₀, heq⟩ := Option.map_eq_some_iff.1 hreading
    obtain ⟨rfl, huses⟩ := Prod.mk.inj heq
    dsimp only at huses
    rw [← huses] at hv
    rw [← Block.boundAt_of_outline houtline]
    exact (h.statement b block before hb (hsame.symm.walk hw) i w₀ s₀ hi₀ v hv).imp
      (fun hin => hsame.boundIn before hin) id
  branch b block' before hb' hw br hbr v hv := by
    obtain ⟨block, hb, houtline⟩ := hsame.symm.exists_block hb'
    obtain ⟨br₀, hbr₀, -, -, -, huses⟩ :=
      Block.exists_branch_of_exits (congrArg (fun o => o.2.2) houtline.symm) hbr
    rw [huses] at hv
    rw [← Block.boundAt_of_outline houtline]
    exact (h.branch b block before hb (hsame.symm.walk hw) br₀ hbr₀ v hv).imp
      (fun hin => hsame.boundIn before hin) id

/-! ## Routed calls -/

/-- The operation with its call routed, unless it is one of the hook already. -/
def routed (via : Operand) : Operation → Operation
  | .call callee args => if callee == via then .call callee args else .call via (callee :: args)
  | .operand op => .operand op

/-- Routing changes the operations of a block and nothing else. -/
theorem block?_routeCalls (g : Graph) (via : Operand) (b : BlockId) :
    (g.routeCalls via).1.block? b = (g.block? b).map fun block =>
      { block with body := block.body.map fun e =>
        (e.1, { e.2 with operation := routed via e.2.operation }) } := by
  refine (Array.getElem?_map ..).trans ?_
  refine congrArg (fun k => Option.map k (g.block? b)) (funext fun block => ?_)
  refine congrArg (Block.mk block.params · block.branches) (List.map_congr_left fun e _ => ?_)
  obtain ⟨v, op, ty, line⟩ := e
  cases op with
  | call callee args =>
    simp only [routed]
    split
    · rfl
    · rfl
  | operand op => rfl

/-- A call through a hook reads what it read before, for a hook is no variable. -/
theorem sameOutline_routeCalls (g : Graph) (hook : HookId) :
    g.SameOutline (g.routeCalls (.const (.hook hook))).1 := by
  intro b
  rw [block?_routeCalls, Option.map_map]
  refine congrArg (fun k => Option.map k (g.block? b)) (funext fun block => ?_)
  have huses : ∀ e : Operation, (routed (.const (.hook hook)) e).uses = e.uses := by
    intro e
    cases e with
    | operand op => rfl
    | call callee args =>
      rw [routed]
      split <;> rfl
  simp only [Function.comp_apply, Block.outline, Prod.mk.injEq, Block.readings, Block.exits,
    List.map_map, true_and, and_true]
  exact List.map_congr_left fun e _ => congrArg (Prod.mk e.1) (huses e.2.operation)

end Graph

end Interpose
