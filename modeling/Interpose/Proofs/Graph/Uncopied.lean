import Interpose.Proofs.Graph.Copies
import Interpose.Proofs.Graph.Thinned
import Interpose.Proofs.Pass.Result

/-!
# A graph without copies

Some copies of a graph are left out, and whoever reads one reads the end of its chain. The blocks
stay where they are, and so do the walks through them. What a walk binds is what it bound before,
but for the copies. The end of a chain is bound where the chain begins, so a graph in order is still
in order.
-/

set_option autoImplicit false

namespace Interpose

open EditPass (EndsAt EditedBranch)

variable {next : Variable → Option Operand} {resolve : Operand → Operand}

/-- The block without the copies, with its operands at the ends of their chains. -/
structure Block.Uncopied (next : Variable → Option Operand) (resolve : Operand → Operand)
    (block block' : Block) : Prop where
  params : block'.params = block.params
  body : block'.body = (block.body.filter fun e => (next e.1).isNone).map fun e =>
    (e.1, e.2.map resolve)
  branches : List.Forall₂ (EditedBranch resolve) block.branches block'.branches

/-- The graph without the copies. -/
structure Graph.Uncopied (g : Graph) (next : Variable → Option Operand) (g' : Graph) : Prop where
  blocks : ∃ resolve : Operand → Operand, (∀ op, EndsAt next op (resolve op))
    ∧ List.Forall₂ (Block.Uncopied next resolve) g.blocks.toList g'.blocks.toList
  provenance : g'.provenance = g.provenance
  varCount : g'.varCount = g.varCount

/-! ## Ends of chains -/

namespace EditPass

/-- What is no variable is no copy. -/
theorem EndsAt.eq_of_var? {op e : Operand} (h : EndsAt next op e) (hop : op.var? = none) :
    e = op := by
  cases h with
  | stop => rfl
  | hop => cases hop

/-- What is not redirected is the end of its chain. -/
theorem EndsAt.eq_of_next {v : Variable} {e : Operand} (h : EndsAt next (.var v) e)
    (hv : next v = none) : e = .var v := by
  cases h with
  | stop => rfl
  | hop hnext =>
    rw [hv] at hnext
    cases hnext

end EditPass

/-! ## Blocks -/

theorem forall₂_getElem? {α β : Type} {R : α → β → Prop} {l : List α} {l' : List β}
    (h : List.Forall₂ R l l') (i : Nat) : Option.Rel R l[i]? l'[i]? := by
  induction h generalizing i with
  | nil => exact .none
  | cons hab _ ih =>
    cases i with
    | zero => exact .some hab
    | succ i => exact ih i

/-- What stands at a position of a filtered list stands in the list, and what was kept before it
stood before it. -/
theorem exists_getElem?_of_filter {α : Type} {p : α → Bool} {l : List α} {j : Nat} {a : α}
    (h : (l.filter p)[j]? = some a) :
    ∃ i, l[i]? = some a ∧ p a = true ∧ (l.take i).filter p = (l.filter p).take j := by
  obtain ⟨front', back', hsplit, rfl⟩ := Graph.exists_append_cons_of_getElem? h
  obtain ⟨front, rest, rfl, hfront, hrest⟩ := List.filter_eq_append_iff.1 hsplit
  obtain ⟨skipped, back, rfl, hskipped, ha, hback⟩ := List.filter_eq_cons_iff.1 hrest
  refine ⟨(front ++ skipped).length, ?_, ha, ?_⟩
  · rw [← List.append_assoc, List.getElem?_append_right (Nat.le_refl _), Nat.sub_self]
    rfl
  · have hnone : skipped.filter p = [] :=
      List.filter_eq_nil_iff.2 fun x hx => by simpa using hskipped x hx
    rw [hsplit, ← List.append_assoc, List.take_left, List.filter_append, hfront, hnone,
      List.append_nil, List.take_left]

namespace Block.Uncopied

variable {block block' : Block} {v w : Variable} {s' : Statement} {i j : Nat}

theorem paramVars (h : Block.Uncopied next resolve block block') :
    block'.paramVars = block.paramVars := by
  rw [Block.paramVars, Block.paramVars, h.params]

theorem bodyVars (h : Block.Uncopied next resolve block block') :
    block'.bodyVars = (block.body.filter fun e => (next e.1).isNone).map Prod.fst := by
  rw [Block.bodyVars, h.body, List.map_map]
  rfl

/-- Every statement that is left has the one that it comes from. What stands before it and is no
copy stood before that one. -/
theorem exists_statement (h : Block.Uncopied next resolve block block')
    (hj : block'.body[j]? = some (w, s')) :
    ∃ i s, block.body[i]? = some (w, s) ∧ s' = s.map resolve
      ∧ ∀ v, next v = none → v ∈ block.boundAt (some i) → v ∈ block'.boundAt (some j) := by
  rw [h.body, List.getElem?_map] at hj
  obtain ⟨⟨w₀, s⟩, hkept, heq⟩ := Option.map_eq_some_iff.1 hj
  cases heq
  obtain ⟨i, hi, -, htake⟩ := exists_getElem?_of_filter hkept
  refine ⟨i, s, hi, rfl, fun v hv hmem => ?_⟩
  rcases List.mem_append.1 hmem with hparam | hbody
  · exact List.mem_append_left _ (h.paramVars ▸ hparam)
  · refine List.mem_append_right _ ?_
    rw [Block.bodyVars, ← List.map_take] at hbody
    obtain ⟨e, he, rfl⟩ := List.mem_map.1 hbody
    rw [h.bodyVars, ← List.map_take, ← htake]
    exact List.mem_map_of_mem (List.mem_filter.2 ⟨he, by rw [hv]; rfl⟩)

/-- What is bound and is no copy is still bound. -/
theorem mem_boundVars (h : Block.Uncopied next resolve block block') (hv : next v = none)
    (hmem : v ∈ block.boundVars) : v ∈ block'.boundVars := by
  rcases List.mem_append.1 hmem with hparam | hbody
  · exact List.mem_append_left _ (h.paramVars ▸ hparam)
  · refine List.mem_append_right _ ?_
    obtain ⟨e, he, rfl⟩ := List.mem_map.1 hbody
    rw [h.bodyVars]
    exact List.mem_map_of_mem (List.mem_filter.2 ⟨he, by rw [hv]; rfl⟩)

theorem exists_branch (h : Block.Uncopied next resolve block block') {br' : Branch}
    (hbr' : br' ∈ block'.branches) : ∃ br ∈ block.branches, EditedBranch resolve br br' :=
  Graph.exists_mem_of_forall₂ (R := flip (EditedBranch resolve)) h.branches.flip hbr'

theorem conditions (h : Block.Uncopied next resolve block block') :
    block'.branches.map Branch.isConditional = block.branches.map Branch.isConditional := by
  have hpairs : List.Forall₂ (fun br br' => br.isConditional = br'.isConditional) block.branches
      block'.branches := by
    refine h.branches.imp fun br br' hbr => ?_
    have hcondition := congrArg Option.isSome hbr.condition
    rw [Option.isSome_map, Option.isSome_map] at hcondition
    exact hcondition.symm
  have hmaps := List.forall₂_map_right_iff.2 (List.forall₂_map_left_iff.2 hpairs)
  rw [List.forall₂_eq_eq_eq] at hmaps
  exact hmaps.symm

theorem targets (h : Block.Uncopied next resolve block block') :
    block'.targets = block.targets := by
  have hpairs : List.Forall₂ (fun br br' => br.block? = br'.block?) block.branches
      block'.branches :=
    h.branches.imp fun br br' hbr => by rw [Branch.block?, Branch.block?, hbr.target]
  have hmaps := List.forall₂_map_right_iff.2 (List.forall₂_map_left_iff.2 hpairs)
  rw [List.forall₂_eq_eq_eq] at hmaps
  have hid : ∀ l : List Branch, l.filterMap Branch.block?
      = (l.map Branch.block?).filterMap id := fun l => by
    rw [List.filterMap_map]
    rfl
  rw [Block.targets, Block.targets, hid, hid, hmaps]

end Block.Uncopied

/-! ## Walks -/

namespace Graph

variable {g g' : Graph} {b c : BlockId} {block block' : Block} {before : List BlockId}
  {v : Variable}

section Related

variable (h : List.Forall₂ (Block.Uncopied next resolve) g.blocks.toList g'.blocks.toList)

include h

theorem rel_uncopied (b : BlockId) :
    Option.Rel (Block.Uncopied next resolve) (g.block? b) (g'.block? b) := by
  simpa [block?] using forall₂_getElem? h b.index

theorem exists_uncopied (hb : g.block? b = some block) :
    ∃ block', g'.block? b = some block' ∧ Block.Uncopied next resolve block block' := by
  have hrel := rel_uncopied h b
  rw [hb] at hrel
  generalize g'.block? b = other at hrel
  cases hrel with
  | some hsame => exact ⟨_, rfl, hsame⟩

theorem exists_copied (hb : g'.block? b = some block') :
    ∃ block, g.block? b = some block ∧ Block.Uncopied next resolve block block' := by
  have hrel := rel_uncopied h b
  rw [hb] at hrel
  generalize g.block? b = other at hrel
  cases hrel with
  | some hsame => exact ⟨_, rfl, hsame⟩

theorem block?_uncopied_none (hb : g.block? b = none) : g'.block? b = none := by
  have hrel := rel_uncopied h b
  rw [hb] at hrel
  generalize g'.block? b = other at hrel
  cases hrel with
  | none => rfl

/-- The walks through both graphs are the same. -/
theorem walk_uncopied : g'.Walk b before ↔ g.Walk b before := by
  have hfollows : ∀ b c, g'.Follows b c ↔ g.Follows b c := by
    intro b c
    constructor
    · rintro ⟨block', hb, hc⟩
      obtain ⟨block, hblock, hsame⟩ := exists_copied h hb
      exact ⟨block, hblock, hsame.targets ▸ hc⟩
    · rintro ⟨block, hb, hc⟩
      obtain ⟨block', hblock, hsame⟩ := exists_uncopied h hb
      exact ⟨block', hblock, hsame.targets.symm ▸ hc⟩
  constructor
  · intro hw
    induction hw with
    | start => exact .start
    | step _ hbc ih => exact ih.step ((hfollows _ _).1 hbc)
  · intro hw
    induction hw with
    | start => exact .start
    | step _ hbc ih => exact ih.step ((hfollows _ _).2 hbc)

theorem boundIn_uncopied (hv : next v = none) (hmem : v ∈ g.boundIn before) :
    v ∈ g'.boundIn before := by
  obtain ⟨c, hc, block, hblock, hmem⟩ := mem_boundIn.1 hmem
  obtain ⟨block', hblock', hsame⟩ := exists_uncopied h hblock
  exact mem_boundIn.2 ⟨c, hc, block', hblock', hsame.mem_boundVars hv hmem⟩

theorem takes_uncopied {t : Target} {n : Nat} (htakes : g.Takes t n) : g'.Takes t n := by
  cases t with
  | leave => exact htakes
  | block b =>
    obtain ⟨block, hblock, rfl⟩ := htakes
    obtain ⟨block', hblock', hsame⟩ := exists_uncopied h hblock
    exact ⟨block', hblock', by rw [hsame.params]⟩

end Related

/-! ## Order -/

section Order

variable (hcoherent : g.Coherent) (hg : g.WellFormed) (hcopies : g.Copies next)
  (hends : ∀ op, EndsAt next op (resolve op))
  (h : List.Forall₂ (Block.Uncopied next resolve) g.blocks.toList g'.blocks.toList)

include hcoherent hg hcopies hends h

/-- What an operand is resolved to is bound where the operand is, and no copy. -/
theorem bound_of_resolve (hb : g.block? b = some block) (hwalk : g.Walk b before)
    {place : Option Nat} {op : Operand}
    (hop : ∀ u, op.var? = some u → u ∈ g.boundIn before ∨ u ∈ block.boundAt place)
    (hv : (resolve op).var? = some v) :
    (v ∈ g'.boundIn before ∨ v ∈ block.boundAt place) ∧ next v = none := by
  have hnone := (hends op).next_eq_none v hv
  have hbound := mem_of_endsAt
    (fun u w hu hhop => hcopies.bound hcoherent hg.toWellUsed hb hwalk hu hhop) (hends op)
    hop v hv
  exact ⟨hbound.imp_left (boundIn_uncopied h hnone), hnone⟩

/-- **A graph in order is in order without its copies**, where every block is reached. -/
theorem wellFormed_uncopied (hreached : ∀ b block, g.block? b = some block → g.Reached b) :
    g'.WellFormed where
  ends b block' hb' := by
    obtain ⟨block, hb, hsame⟩ := exists_copied h hb'
    exact ends_of_conditions hsame.conditions (hg.ends b block hb)
  balanced b block' hb' br' hbr' := by
    obtain ⟨block, hb, hsame⟩ := exists_copied h hb'
    obtain ⟨br, hbr, hedited⟩ := hsame.exists_branch hbr'
    rw [hedited.target, hedited.args, List.length_map]
    exact takes_uncopied h (hg.balanced b block hb br hbr)
  toWellUsed := by
    refine wellUsed_of_reached (fun b block' hb' => ?_)
      (fun b block' before hb' hw' i w s' hi v hv => ?_)
      (fun b block' before hb' hw' br' hbr' v hv => ?_)
    · obtain ⟨block, hb, -⟩ := exists_copied h hb'
      obtain ⟨before, hw⟩ := hreached b block hb
      exact ⟨before, (walk_uncopied h).2 hw⟩
    · obtain ⟨block, hb, hsame⟩ := exists_copied h hb'
      have hw := (walk_uncopied h).1 hw'
      obtain ⟨j, s, hj, rfl, hbefore⟩ := hsame.exists_statement hi
      -- what is read now is what a use of before was resolved to
      obtain ⟨op, hop, hv'⟩ := EditPass.exists_of_mem_uses_map hv
      obtain ⟨hbound, hnone⟩ := bound_of_resolve hcoherent hg hcopies hends h hb hw
        (fun u hu => hg.statement b block before hb hw j w s hj u (hop u hu)) hv'
      exact hbound.imp_right (hbefore v hnone)
    · obtain ⟨block, hb, hsame⟩ := exists_copied h hb'
      have hw := (walk_uncopied h).1 hw'
      obtain ⟨br, hbr, hedited⟩ := hsame.exists_branch hbr'
      obtain ⟨op, hop, hv'⟩ := hedited.exists_of_mem_uses hv
      obtain ⟨hbound, hnone⟩ := bound_of_resolve hcoherent hg hcopies hends h hb hw
        (fun u hu => hg.branch b block before hb hw br hbr u (hop u hu)) hv'
      exact hbound.imp_right (hsame.mem_boundVars hnone)

end Order

end Graph

end Interpose
