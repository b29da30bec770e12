import Mathlib.Data.Set.Function
import Interpose.Proofs.Graph.Renaming

/-!
# Graphs of one shape

The numbers of variables say nothing about what a graph does. Two graphs have one shape if a
renaming of the variables carries the blocks of the one onto those of the other, position by
position. `Graph.sameShape` knows nothing of renamings: it compares the graphs under canonical
numbers. In graphs in order both come to the same.

What corresponds to what is said for any relation of variables, since both sides of the argument are
such relations. Equality under canonical numbers relates two variables that have the same place
among the bound ones, and a renaming relates a variable to its new name. A graph in order reads only
what it binds, so it is enough to compare the two relations on bound variables.
-/

set_option autoImplicit false

namespace Interpose

/-! ## What corresponds -/

section Corresponds

variable (R : Variable → Variable → Prop)

/-- Operands of one kind, with related variables, the same names, or constants that compare as
equal. -/
inductive Operand.Corresponds : Operand → Operand → Prop
  | var {v w : Variable} : R v w → Corresponds (.var v) (.var w)
  | const {c d : Value} : (c == d) = true → Corresponds (.const c) (.const d)
  | global (name : String) : Corresponds (.global name) (.global name)

inductive Operation.Corresponds : Operation → Operation → Prop
  | call {callee callee' : Operand} {args args' : List Operand} : callee.Corresponds R callee' →
    List.Forall₂ (Operand.Corresponds R) args args' →
    Corresponds (.call callee args) (.call callee' args')
  | operand {op op' : Operand} : op.Corresponds R op' → Corresponds (.operand op) (.operand op')

structure Statement.Corresponds (s s' : Statement) : Prop where
  operation : s.operation.Corresponds R s'.operation
  ty : s.ty = s'.ty
  line : s.line = s'.line

structure Branch.Corresponds (br br' : Branch) : Prop where
  target : br.target = br'.target
  condition : Option.Rel R br.condition br'.condition
  args : List.Forall₂ (Operand.Corresponds R) br.args br'.args

structure Block.Corresponds (b b' : Block) : Prop where
  params : List.Forall₂ (fun p p' => R p.1 p'.1 ∧ p.2 = p'.2) b.params b'.params
  body : List.Forall₂ (fun e e' => R e.1 e'.1 ∧ e.2.Corresponds R e'.2) b.body b'.body
  branches : List.Forall₂ (Branch.Corresponds R) b.branches b'.branches

end Corresponds

/-- The renaming matches the bound variables of the graphs one to one, and carries the blocks of the
first, position by position, onto those of the second. -/
structure Graph.CarriedBy (f : Variable → Variable) (g g' : Graph) : Prop where
  bijective : Set.BijOn f {v | v ∈ g.boundVars} {v | v ∈ g'.boundVars}
  blocks : List.Forall₂ (Block.Corresponds fun v w => f v = w) g.blocks.toList g'.blocks.toList

/-! ## Lists of corresponding things -/

/-- Lists compare as equal exactly if their elements do, one by one. -/
theorem list_beq_iff {α : Type} [BEq α] {l l' : List α} :
    (l == l') = true ↔ List.Forall₂ (fun a b => (a == b) = true) l l' := by
  induction l generalizing l' with
  | nil =>
    cases l' with
    | nil => exact ⟨fun _ => .nil, fun _ => rfl⟩
    | cons b l' => exact ⟨nofun, nofun⟩
  | cons a l ih =>
    cases l' with
    | nil => exact ⟨nofun, nofun⟩
    | cons b l' => rw [List.forall₂_cons, ← ih, ← Bool.and_eq_true]; rfl

/-- What relates only members of the lists may be put in the place of their relation. -/
theorem forall₂_mono {α β : Type} {R S : α → β → Prop} {l : List α} {l' : List β}
    (h : List.Forall₂ R l l') (hRS : ∀ a ∈ l, ∀ b ∈ l', R a b → S a b) : List.Forall₂ S l l' := by
  induction h with
  | nil => exact .nil
  | cons hab _ ih =>
    refine .cons (hRS _ List.mem_cons_self _ List.mem_cons_self hab) (ih fun a ha b hb => ?_)
    exact hRS a (List.mem_cons_of_mem _ ha) b (List.mem_cons_of_mem _ hb)

/-! ## Equality under two renamings -/

section Renamed

variable {r r' : Variable → Variable}

/-- Operands are equal under two renamings exactly if they correspond by what these send to one
number. -/
theorem Operand.beq_rename_iff {op op' : Operand} :
    (Graph.renameOperand r op == Graph.renameOperand r' op') = true
      ↔ op.Corresponds (fun v w => r v = r' w) op' := by
  constructor
  · intro h
    cases op with
    | var v =>
      cases op' with
      | var w => exact .var (LawfulBEq.eq_of_beq (α := Variable) h)
      | const d => cases h
      | global name' => cases h
    | const c =>
      cases op' with
      | var w => cases h
      | const d => exact .const h
      | global name' => cases h
    | global name =>
      cases op' with
      | var w => cases h
      | const d => cases h
      | global name' =>
        obtain rfl := LawfulBEq.eq_of_beq (α := String) h
        exact .global name
  · intro h
    cases h with
    | var hvw => exact (beq_iff_eq (α := Variable)).2 hvw
    | const hcd => exact hcd
    | global name => exact beq_self_eq_true name

theorem Operand.beq_map_rename_iff {ops ops' : List Operand} :
    (ops.map (Graph.renameOperand r) == ops'.map (Graph.renameOperand r')) = true
      ↔ List.Forall₂ (Operand.Corresponds fun v w => r v = r' w) ops ops' := by
  rw [list_beq_iff, List.forall₂_map_left_iff, List.forall₂_map_right_iff]
  simp only [Operand.beq_rename_iff]

theorem Operation.beq_rename_iff {e e' : Operation} :
    (e.map (Graph.renameOperand r) == e'.map (Graph.renameOperand r')) = true
      ↔ e.Corresponds (fun v w => r v = r' w) e' := by
  constructor
  · intro h
    cases e with
    | call callee args =>
      cases e' with
      | call callee' args' =>
        obtain ⟨hcallee, hargs⟩ := Bool.and_eq_true_iff.1 h
        exact .call (Operand.beq_rename_iff.1 hcallee) (Operand.beq_map_rename_iff.1 hargs)
      | operand op' => cases h
    | operand op =>
      cases e' with
      | call callee' args' => cases h
      | operand op' => exact .operand (Operand.beq_rename_iff.1 h)
  · intro h
    cases h with
    | call hcallee hargs =>
      exact Bool.and_eq_true_iff.2 ⟨Operand.beq_rename_iff.2 hcallee,
        Operand.beq_map_rename_iff.2 hargs⟩
    | operand hop => exact Operand.beq_rename_iff.2 hop

theorem Statement.beq_rename_iff {s s' : Statement} :
    (s.map (Graph.renameOperand r) == s'.map (Graph.renameOperand r')) = true
      ↔ s.Corresponds (fun v w => r v = r' w) s' := by
  have hbeq : ∀ s s' : Statement, (s == s') = true
      ↔ (s.operation == s'.operation) = true ∧ s.ty = s'.ty ∧ s.line = s'.line := by
    intro s s'
    rw [show (s == s')
      = (s.operation == s'.operation && (s.ty == s'.ty && s.line == s'.line)) from rfl,
      Bool.and_eq_true, Bool.and_eq_true, beq_iff_eq (a := s.ty), beq_iff_eq (a := s.line)]
  rw [hbeq]
  exact ⟨fun ⟨hop, hty, hline⟩ => ⟨Operation.beq_rename_iff.1 hop, hty, hline⟩,
    fun h => ⟨Operation.beq_rename_iff.2 h.operation, h.ty, h.line⟩⟩

theorem Branch.beq_rename_iff {br br' : Branch} :
    (br.rename r == br'.rename r') = true ↔ br.Corresponds (fun v w => r v = r' w) br' := by
  have hbeq : ∀ br br' : Branch, (br == br') = true
      ↔ br.target = br'.target ∧ br.condition = br'.condition ∧ (br.args == br'.args) = true := by
    intro br br'
    rw [show (br == br') = (br.target == br'.target
      && (br.condition == br'.condition && br.args == br'.args)) from rfl,
      Bool.and_eq_true, Bool.and_eq_true, beq_iff_eq, beq_iff_eq]
  have hcondition : ∀ c c' : Option Variable, c.map r = c'.map r'
      ↔ Option.Rel (fun v w => r v = r' w) c c' := by
    intro c c'
    cases c with
    | none =>
      cases c' with
      | none => exact ⟨fun _ => .none, fun _ => rfl⟩
      | some w => exact ⟨nofun, nofun⟩
    | some v =>
      cases c' with
      | none => exact ⟨nofun, nofun⟩
      | some w =>
        rw [Option.map_some, Option.map_some, Option.some_inj]
        exact ⟨fun h => .some h, fun h => by cases h; assumption⟩
  rw [hbeq]
  exact ⟨fun ⟨htarget, hc, hargs⟩ => ⟨htarget, (hcondition _ _).1 hc,
    Operand.beq_map_rename_iff.1 hargs⟩,
    fun h => ⟨h.target, (hcondition _ _).2 h.condition, Operand.beq_map_rename_iff.2 h.args⟩⟩

/-- **Blocks are equal under two renamings** exactly if they correspond by what these send to one
number. -/
theorem Block.beq_rename_iff {b b' : Block} :
    (Graph.renameBlock r b == Graph.renameBlock r' b') = true
      ↔ b.Corresponds (fun v w => r v = r' w) b' := by
  have hbeq : ∀ b b' : Block, (b == b') = true
      ↔ (b.params == b'.params) = true ∧ (b.body == b'.body) = true
        ∧ (b.branches == b'.branches) = true := by
    intro b b'
    rw [show (b == b')
      = (b.params == b'.params && (b.body == b'.body && b.branches == b'.branches)) from rfl,
      Bool.and_eq_true, Bool.and_eq_true]
  -- lists are compared entry by entry
  rw [hbeq, list_beq_iff, list_beq_iff, list_beq_iff, Block.branches_rename, Block.branches_rename]
  simp only [Graph.renameBlock, List.forall₂_map_left_iff, List.forall₂_map_right_iff,
    Branch.beq_rename_iff]
  have hparam : ∀ p p' : Variable × Ty, (((r p.1, p.2) == (r' p'.1, p'.2)) = true)
      ↔ r p.1 = r' p'.1 ∧ p.2 = p'.2 := by
    intro p p'
    rw [beq_iff_eq, Prod.mk.injEq]
  have hentry : ∀ e e' : Variable × Statement,
      (((r e.1, e.2.map (Graph.renameOperand r)) == (r' e'.1, e'.2.map (Graph.renameOperand r')))
          = true)
        ↔ r e.1 = r' e'.1 ∧ e.2.Corresponds (fun v w => r v = r' w) e'.2 := by
    intro e e'
    rw [← Statement.beq_rename_iff, ← beq_iff_eq (a := r e.1), ← Bool.and_eq_true]
    rfl
  simp only [hparam, hentry]
  constructor
  · rintro ⟨hparams, hbody, hbranches⟩
    exact ⟨hparams, hbody, hbranches⟩
  · intro h
    exact ⟨h.params, h.body, h.branches⟩

end Renamed

/-! ## Other relations of the same variables -/

section Mono

variable {R S : Variable → Variable → Prop}

theorem Operand.Corresponds.mono {op op' : Operand} (h : op.Corresponds R op')
    (hRS : ∀ v ∈ op.var?, ∀ w ∈ op'.var?, R v w → S v w) : op.Corresponds S op' := by
  cases h with
  | var hvw => exact .var (hRS _ rfl _ rfl hvw)
  | const hcd => exact .const hcd
  | global name => exact .global name

theorem Operand.corresponds_mono {ops ops' : List Operand}
    (h : List.Forall₂ (Operand.Corresponds R) ops ops')
    (hRS : ∀ v ∈ ops.filterMap Operand.var?, ∀ w ∈ ops'.filterMap Operand.var?, R v w → S v w) :
    List.Forall₂ (Operand.Corresponds S) ops ops' := by
  refine forall₂_mono h fun op hop op' hop' hcorresponds => hcorresponds.mono fun v hv w hw => ?_
  exact hRS v (List.mem_filterMap.2 ⟨op, hop, hv⟩) w (List.mem_filterMap.2 ⟨op', hop', hw⟩)

theorem Statement.Corresponds.mono {s s' : Statement} (h : s.Corresponds R s')
    (hRS : ∀ v ∈ s.uses, ∀ w ∈ s'.uses, R v w → S v w) : s.Corresponds S s' := by
  refine ⟨?_, h.ty, h.line⟩
  obtain ⟨e, ty, line⟩ := s
  obtain ⟨e', ty', line'⟩ := s'
  have hop : e.Corresponds R e' := h.operation
  cases hop with
  | call hcallee hargs =>
    have hall := Operand.corresponds_mono (.cons hcallee hargs) hRS
    obtain ⟨hcallee, hargs⟩ := List.forall₂_cons.1 hall
    exact .call hcallee hargs
  | operand hop =>
    exact .operand (List.forall₂_cons.1 (Operand.corresponds_mono (.cons hop .nil) hRS)).1

theorem Branch.Corresponds.mono {br br' : Branch} (h : br.Corresponds R br')
    (hRS : ∀ v ∈ br.uses, ∀ w ∈ br'.uses, R v w → S v w) : br.Corresponds S br' := by
  refine ⟨h.target, ?_, Operand.corresponds_mono h.args fun v hv w hw =>
    hRS v (List.mem_append_right _ hv) w (List.mem_append_right _ hw)⟩
  obtain ⟨target, condition, args⟩ := br
  obtain ⟨target', condition', args'⟩ := br'
  have hcondition : Option.Rel R condition condition' := h.condition
  cases hcondition with
  | none => exact .none
  | some hvw => exact .some (hRS _ List.mem_cons_self _ List.mem_cons_self hvw)

/-- Only the variables that the blocks bind and read matter for what corresponds. -/
theorem Block.Corresponds.mono {b b' : Block} (h : b.Corresponds R b')
    (hRS : ∀ v ∈ b.boundVars ++ b.uses, ∀ w ∈ b'.boundVars ++ b'.uses, R v w → S v w) :
    b.Corresponds S b' where
  params := forall₂_mono h.params fun _ hp _ hp' hpp' =>
    ⟨hRS _ (List.mem_append_left _ (List.mem_append_left _ (List.mem_map_of_mem hp))) _
      (List.mem_append_left _ (List.mem_append_left _ (List.mem_map_of_mem hp'))) hpp'.1, hpp'.2⟩
  body := forall₂_mono h.body fun e he e' he' hee' =>
    ⟨hRS _ (List.mem_append_left _ (List.mem_append_right _ (List.mem_map_of_mem he))) _
      (List.mem_append_left _ (List.mem_append_right _ (List.mem_map_of_mem he'))) hee'.1,
    hee'.2.mono fun v hv w hw =>
      hRS v (List.mem_append_right _ (List.mem_append_left _ (List.mem_flatMap.2 ⟨e, he, hv⟩))) w
        (List.mem_append_right _ (List.mem_append_left _ (List.mem_flatMap.2 ⟨e', he', hw⟩)))⟩
  branches := forall₂_mono h.branches fun br hbr br' hbr' hbb' => hbb'.mono fun v hv w hw =>
    hRS v (List.mem_append_right _ (List.mem_append_right _ (List.mem_flatMap.2 ⟨br, hbr, hv⟩))) w
      (List.mem_append_right _ (List.mem_append_right _ (List.mem_flatMap.2 ⟨br', hbr', hw⟩)))

/-- Blocks that correspond bind related variables in the same order. -/
theorem Block.Corresponds.boundVars {b b' : Block} (h : b.Corresponds R b') :
    List.Forall₂ R b.boundVars b'.boundVars := by
  refine List.rel_append ?_ ?_
  · exact List.forall₂_map_left_iff.2
      (List.forall₂_map_right_iff.2 (h.params.imp fun _ _ hpp' => hpp'.1))
  · exact List.forall₂_map_left_iff.2
      (List.forall₂_map_right_iff.2 (h.body.imp fun _ _ hee' => hee'.1))

end Mono

namespace Graph

/-! ## Shapes -/

variable {g g' : Graph} {R S : Variable → Variable → Prop}

/-- The graphs have the same shape exactly if their blocks correspond by what has the same canonical
number. -/
theorem sameShape_iff : g.sameShape g' = true
    ↔ List.Forall₂ (Block.Corresponds fun v w => rename g.boundVars v = rename g'.boundVars w)
      g.blocks.toList g'.blocks.toList := by
  rw [sameShape, ← Array.beq_toList, list_beq_iff]
  simp only [canonical, Array.toList_map, List.forall₂_map_left_iff, List.forall₂_map_right_iff,
    Block.beq_rename_iff]

/-- Graphs whose blocks correspond bind related variables in the same order. -/
theorem boundVars_of_corresponds
    (h : List.Forall₂ (Block.Corresponds R) g.blocks.toList g'.blocks.toList) :
    List.Forall₂ R g.boundVars g'.boundVars := by
  rw [boundVars, boundVars]
  generalize g.blocks.toList = blocks at h
  generalize g'.blocks.toList = blocks' at h
  induction h with
  | nil => exact .nil
  | cons hbb' _ ih =>
    rw [List.flatMap_cons, List.flatMap_cons]
    exact List.rel_append hbb'.boundVars ih

/-- Where all that is read is bound, relations that agree on bound variables make the same blocks
correspond. -/
theorem corresponds_mono (hg : g.WellUsed) (hg' : g'.WellUsed)
    (h : List.Forall₂ (Block.Corresponds R) g.blocks.toList g'.blocks.toList)
    (hRS : ∀ v ∈ g.boundVars, ∀ w ∈ g'.boundVars, R v w → S v w) :
    List.Forall₂ (Block.Corresponds S) g.blocks.toList g'.blocks.toList := by
  have hbound : ∀ {g : Graph}, g.WellUsed → ∀ b ∈ g.blocks.toList,
      b.boundVars ++ b.uses ⊆ g.boundVars := by
    intro g hg b hmem
    obtain ⟨i, hi⟩ := List.mem_iff_getElem?.1 hmem
    have hb : g.block? ⟨i⟩ = some b := by simpa [block?] using hi
    exact List.append_subset.2 ⟨fun v hv => mem_boundVars_of_block? hb hv,
      fun v hv => hg.bound _ b hb v hv⟩
  exact forall₂_mono h fun b hb b' hb' hbb' => hbb'.mono fun v hv w hw =>
    hRS v (hbound hg b hb hv) w (hbound hg' b' hb' hw)

/-- Variables at the same place among the bound ones are those with the same canonical number. -/
theorem rename_eq_rename_iff {bound bound' : List Variable} (hnd : bound.Nodup)
    (hnd' : bound'.Nodup) {v w : Variable} (hv : v ∈ bound) (hw : w ∈ bound') :
    rename bound v = rename bound' w ↔ ∃ i : Nat, bound[i]? = some v ∧ bound'[i]? = some w := by
  obtain ⟨i, hi⟩ := List.mem_iff_getElem?.1 hv
  obtain ⟨j, hj⟩ := List.mem_iff_getElem?.1 hw
  rw [rename_of_getElem? hnd hi, rename_of_getElem? hnd' hj]
  constructor
  · intro h
    obtain rfl : i = j := congrArg Variable.index h
    exact ⟨i, hi, hj⟩
  · rintro ⟨k, hk, hk'⟩
    have hik := (List.getElem?_inj (List.getElem?_eq_some_iff.1 hi).1 hnd).1 (hi.trans hk.symm)
    have hjk := (List.getElem?_inj (List.getElem?_eq_some_iff.1 hj).1 hnd').1 (hj.trans hk'.symm)
    rw [hik, hjk]

/-- **Graphs in order have the same shape exactly if a renaming carries the one onto the other.**
The renaming takes every bound variable to the one at its place among the bound variables of the
other graph. -/
theorem sameShape_iff_carriedBy (hg : g.WellUsed) (hg' : g'.WellUsed) (hnd : g.boundVars.Nodup)
    (hnd' : g'.boundVars.Nodup) : g.sameShape g' = true ↔ ∃ f, CarriedBy f g g' := by
  rw [sameShape_iff]
  constructor
  · intro h
    have hlength := (boundVars_of_corresponds h).length_eq
    -- the number that a variable has among the bound ones is looked up in the other graph
    let f : Variable → Variable := fun v => g'.boundVars.getD (rename g.boundVars v).index v
    have hf : ∀ (i : Nat) v, g.boundVars[i]? = some v → g'.boundVars[i]? = some (f v) := by
      intro i v hi
      have hlt : i < g'.boundVars.length := hlength ▸ (List.getElem?_eq_some_iff.1 hi).1
      show _ = some (g'.boundVars.getD (rename g.boundVars v).index v)
      rw [rename_of_getElem? hnd hi, List.getD_eq_getElem?_getD, List.getElem?_eq_getElem hlt,
        Option.getD_some]
    refine ⟨f, ⟨fun v hv => ?_, fun v hv w hw heq => ?_, fun w hw => ?_⟩,
      corresponds_mono hg hg' h ?_⟩
    · obtain ⟨i, hi⟩ := List.mem_iff_getElem?.1 hv
      exact List.mem_iff_getElem?.2 ⟨i, hf i v hi⟩
    · obtain ⟨i, hi⟩ := List.mem_iff_getElem?.1 hv
      obtain ⟨j, hj⟩ := List.mem_iff_getElem?.1 hw
      have hlt : i < g'.boundVars.length := hlength ▸ (List.getElem?_eq_some_iff.1 hi).1
      have hij : i = j :=
        (List.getElem?_inj hlt hnd').1 ((hf i v hi).trans (heq ▸ (hf j w hj).symm))
      subst hij
      exact Option.some.inj (hi.symm.trans hj)
    · obtain ⟨i, hi⟩ := List.mem_iff_getElem?.1 hw
      have hlt : i < g.boundVars.length := hlength ▸ (List.getElem?_eq_some_iff.1 hi).1
      refine ⟨g.boundVars[i], List.getElem_mem hlt, ?_⟩
      exact Option.some.inj ((hf i _ (List.getElem?_eq_getElem hlt)).symm.trans hi)
    · intro v hv w hw hvw
      obtain ⟨i, hi, hi'⟩ := (rename_eq_rename_iff hnd hnd' hv hw).1 hvw
      exact Option.some.inj ((hf i v hi).symm.trans hi')
  · rintro ⟨f, -, h⟩
    -- what corresponds binds corresponding variables at the same places
    have hplaces := boundVars_of_corresponds h
    refine corresponds_mono hg hg' h fun v hv w hw hvw => (rename_eq_rename_iff hnd hnd' hv hw).2 ?_
    obtain ⟨i, hi⟩ := List.mem_iff_getElem?.1 hv
    obtain ⟨hlt, hget⟩ := List.getElem?_eq_some_iff.1 hi
    refine ⟨i, hi, ?_⟩
    have hlt' : i < g'.boundVars.length := hplaces.length_eq ▸ hlt
    have hpair := hplaces.get hlt hlt'
    rw [List.get_eq_getElem, List.get_eq_getElem, hget, hvw] at hpair
    rw [List.getElem?_eq_getElem hlt', hpair]

end Graph

end Interpose
