import Interpose.Proofs.Graph.Renaming
import Interpose.Proofs.Run.Along
import Interpose.Proofs.Run.Safety

/-!
# A renamed graph runs alike

A run keeps a value for every variable, and a graph under other names keeps the same values under
the other names. If no two bound variables are given one name, what is assigned to the one in a
round of a loop never overwrites the other, so the two frames agree on all bound variables at every
step. Since a graph in order reads nothing else, the runs do the same.
-/

set_option autoImplicit false

namespace Interpose

variable {f : Variable → Variable} {vars : List Variable} {frame frame' : Frame}

/-! ## Frames -/

/-- Both frames hold the variables, the second one under their new names, with the same values. -/
def Frame.Renames (f : Variable → Variable) (vars : List Variable) (frame frame' : Frame) : Prop :=
  ∀ v ∈ vars, ∃ x, frame[v.index]? = some x ∧ frame'[(f v).index]? = some x

namespace Frame.Renames

/-- An assignment to a variable changes no other one, before and after the renaming. -/
theorem assign (h : Renames f vars frame frame') (hf : ∀ v ∈ vars, ∀ w ∈ vars, f v = f w → v = w)
    {v : Variable} (hv : v ∈ vars) (x : Value) :
    Renames f vars (frame.setIfInBounds v.index x) (frame'.setIfInBounds (f v).index x) := by
  intro w hw
  by_cases hvw : v = w
  · subst hvw
    obtain ⟨y, hy, hy'⟩ := h v hv
    refine ⟨x, ?_, ?_⟩
    · exact Array.getElem?_setIfInBounds_self_of_lt (Array.getElem?_eq_some_iff.1 hy).1
    · exact Array.getElem?_setIfInBounds_self_of_lt (Array.getElem?_eq_some_iff.1 hy').1
  · have hne : v.index ≠ w.index := fun heq => hvw (Variable.index_inj.1 heq)
    have hne' : (f v).index ≠ (f w).index :=
      fun heq => hvw (hf v hv w hw (Variable.index_inj.1 heq))
    rw [Array.getElem?_setIfInBounds_ne hne, Array.getElem?_setIfInBounds_ne hne']
    exact h w hw

theorem bind (h : Renames f vars frame frame') (hf : ∀ v ∈ vars, ∀ w ∈ vars, f v = f w → v = w)
    (vs : List Variable) (hvs : vs ⊆ vars) (xs : List Value) :
    Renames f vars (frame.bind vs xs) (frame'.bind (vs.map f) xs) := by
  induction vs generalizing frame frame' xs with
  | nil => exact h
  | cons v vs ih =>
    cases xs with
    | nil => exact h
    | cons x xs =>
      obtain ⟨hv, hrest⟩ := List.cons_subset.1 hvs
      exact ih (h.assign hf hv x) hrest xs

theorem read (h : Renames f vars frame frame') {v : Variable} (hv : v ∈ vars) :
    frame'.read (f v) = frame.read v := by
  obtain ⟨x, hx, hx'⟩ := h v hv
  rw [Frame.read, Frame.read, hx, hx']

end Frame.Renames

/-! ## Other operands -/

section Operands

variable {σ : Type} {env : Surroundings σ} {change : Operand → Operand}

/-- As many values are read as there are operands. -/
theorem agree_evalAll (env : Surroundings σ) (frame : Frame) (ops : List Operand) :
    Run.Agree (fun xs ys => xs = ys ∧ xs.length = ops.length) (fun _ _ => True)
      (Operand.evalAll env frame ops)
      (Operand.evalAll env frame ops) := by
  induction ops with
  | nil => exact .pure ⟨rfl, rfl⟩
  | cons op ops ih =>
    refine .bind (.refl _) fun x y hxy => .bind ih fun xs ys hxs => .pure ?_
    obtain ⟨rfl, hlen⟩ := hxs
    rw [hxy]
    exact ⟨rfl, congrArg (· + 1) hlen⟩

/-- Operands that are changed, and read in another frame, have the values that they had if each of
them has. -/
theorem evalAll_map {ops : List Operand}
    (hops : ∀ op ∈ ops, (change op).eval env frame' = op.eval env frame) :
    Operand.evalAll env frame' (ops.map change) = Operand.evalAll env frame ops := by
  induction ops with
  | nil => rfl
  | cons op ops ih =>
    have hrest := ih fun op' hop' => hops op' (List.mem_cons_of_mem op hop')
    rw [List.map_cons, Operand.evalAll, Operand.evalAll, hops op List.mem_cons_self, hrest]

theorem eval_map_operation {e : Operation}
    (he : ∀ op ∈ e.operands, (change op).eval env frame' = op.eval env frame) :
    (e.map change).eval env frame' = e.eval env frame := by
  cases e with
  | operand op => exact he op List.mem_cons_self
  | call callee args =>
    have hargs := evalAll_map fun op hop => he op (List.mem_cons_of_mem callee hop)
    rw [Operation.map, Operation.eval, Operation.eval, he callee List.mem_cons_self, hargs]

/-- Branches that are changed, but for what their conditions read, are taken as they were. -/
theorem taken?_map {change : Branch → Branch} {branches : List Branch} (hread : ∀ br ∈ branches,
      Option.Rel (fun c c' => frame'.read c' = frame.read c) br.condition (change br).condition) :
    Run.Fits (fun taken taken' => taken' = taken.map change ∧ ∀ br ∈ taken, br ∈ branches)
      (taken? frame branches) (taken? frame' (branches.map change)) := by
  have hpairs : List.Forall₂ (fun br br' => br ∈ branches ∧ br' = change br) branches
      (branches.map change) :=
    List.forall₂_map_right_iff.2 (List.forall₂_same.2 fun br hbr => ⟨hbr, rfl⟩)
  have hpair : ∀ br br', br ∈ branches ∧ br' = change br →
      Option.Rel (fun c c' => frame'.read c' = frame.read c) br.condition br'.condition := by
    rintro br _ ⟨hbr, rfl⟩
    exact hread br hbr
  refine (taken?_fits hpairs hpair).mono fun taken taken' htaken => ?_
  rcases htaken.1 with hbr | _
  · obtain ⟨hmem, rfl⟩ := hbr
    exact ⟨rfl, fun br hbr => Option.some.inj hbr ▸ hmem⟩
  · exact ⟨rfl, fun br hbr => absurd hbr (Option.not_mem_none br)⟩

end Operands

/-! ## Parts of a run -/

section Parts

variable {σ : Type} {env : Surroundings σ} (h : Frame.Renames f vars frame frame')

include h

theorem eval_rename_operand {op : Operand} (hop : ∀ v ∈ op.var?, v ∈ vars) :
    (Graph.renameOperand f op).eval env frame' = op.eval env frame := by
  cases op with
  | var v => exact congrArg Run.ofExcept (h.read (hop v rfl))
  | const c => rfl
  | global name => rfl

theorem evalAll_rename {ops : List Operand} (hops : ops.filterMap Operand.var? ⊆ vars) :
    Operand.evalAll env frame' (ops.map (Graph.renameOperand f)) = Operand.evalAll env frame ops :=
  evalAll_map fun op hop => eval_rename_operand h fun _ hv => hops
    (List.mem_filterMap.2 ⟨op, hop, hv⟩)

theorem eval_rename_operation {e : Operation} (he : e.uses ⊆ vars) :
    (e.map (Graph.renameOperand f)).eval env frame' = e.eval env frame :=
  eval_map_operation fun op hop => eval_rename_operand h fun _ hv => he
    (List.mem_filterMap.2 ⟨op, hop, hv⟩)

/-- The branch that is taken is the same one, renamed. -/
theorem taken?_rename {branches : List Branch} (hbranches : ∀ br ∈ branches, br.uses ⊆ vars) :
    Run.Fits (fun taken taken' => taken' = taken.map (Branch.rename f)
      ∧ ∀ br ∈ taken, br ∈ branches)
      (taken? frame branches) (taken? frame' (branches.map (Branch.rename f))) := by
  refine taken?_map fun br hbr => ?_
  rw [Branch.rename]
  rcases hc : br.condition with _ | c
  · exact .none
  · exact .some (h.read (hbranches br hbr (List.mem_append_left _ (by simp [hc]))))

end Parts

section Runs

variable {σ : Type} {env : Surroundings σ}

/-- After the same statements under other names the frames still agree. -/
theorem runStatements_rename (hf : ∀ v ∈ vars, ∀ w ∈ vars, f v = f w → v = w)
    (body : List (Variable × Statement)) (hbound : body.map Prod.fst ⊆ vars)
    (hread : ∀ e ∈ body, e.2.uses ⊆ vars) {frame frame' : Frame}
    (h : Frame.Renames f vars frame frame') :
    Run.Agree (Frame.Renames f vars) (fun _ _ => True) (runStatements env frame body)
      (runStatements env frame' (body.map fun (v, s) => (f v, s.map (Graph.renameOperand f)))) := by
  induction body generalizing frame frame' with
  | nil => exact .pure h
  | cons e body ih =>
    obtain ⟨v, s⟩ := e
    rw [List.map_cons] at hbound
    obtain ⟨hv, hrest⟩ := List.cons_subset.1 hbound
    have heval : (s.map (Graph.renameOperand f)).operation.eval env frame'
        = s.operation.eval env frame :=
      eval_rename_operation h (hread _ List.mem_cons_self)
    rw [List.map_cons, runStatements, runStatements, heval]
    refine .bind (.refl _) fun x y hxy => ?_
    obtain rfl := hxy
    exact ih hrest (fun e he => hread e (List.mem_cons_of_mem _ he)) (h.assign hf hv x)

namespace Graph

variable {g g' : Graph}

/-- A block that neither graph has stops both runs. -/
theorem agree_ofGraph_block_none {b : BlockId} (hb : g.block? b = none) (hb' : g'.block? b = none) :
    Run.Agree (fun _ _ => False) (fun _ _ => True) (Run.ofGraph (g.block b) : Run σ Block)
      (Run.ofGraph (g'.block b)) := by
  unfold Graph.block
  rw [hb, hb']
  exact fun s => .inr (.inl ⟨.graph (.unknownBlock b), s, rfl, rfl, trivial⟩)

/-- **A renamed graph runs alike** from every block, if no two bound variables have one new name.
The induction is on the fuel, and the frames agree on the bound variables whenever a block is
entered. -/
theorem runFrom_rename (hrenamed : RenamedBy f g g') (hread : ∀ b block, g.block? b = some block →
      block.uses ⊆ g.boundVars) (hf : ∀ v ∈ g.boundVars, ∀ w ∈ g.boundVars, f v = f w →
      v = w) (fuel : Nat)
    (b : BlockId) {frame frame' : Frame} (h : Frame.Renames f g.boundVars frame frame') :
    g'.runFrom env fuel b frame' = g.runFrom env fuel b frame := by
  refine (Run.Agree.eq (P := fun _ _ => True) ?_).symm
  induction fuel generalizing b frame frame' with
  | zero => exact .outOfFuel
  | succ fuel ih =>
    rw [runFrom, runFrom]
    rcases hb : g.block? b with _ | block
    · have hb' : g'.block? b = none := by rw [hrenamed b, hb]; rfl
      exact .bind (agree_ofGraph_block_none hb hb') fun _ _ hnever => hnever.elim
    -- what the block reads and binds is bound in the graph, and there the renaming is injective
    have huses := hread b block hb
    rw [Run.ofGraph_block hb, Run.ofGraph_block (hrenamed.block hb), pure_bind, pure_bind]
    have hbound : block.boundVars ⊆ g.boundVars := fun v hv => mem_boundVars_of_block? hb hv
    refine .bind (runStatements_rename hf block.body
      (fun v hv => hbound (List.mem_append_right _ hv))
      (fun e he v hv => huses (List.mem_append_left _ (List.mem_flatMap.2 ⟨e, he, hv⟩))) h)
        fun frame₁ frame₁' h₁ => ?_
    have hexits : ∀ br ∈ block.branches, br.uses ⊆ g.boundVars := fun br hbr v hv =>
      huses (List.mem_append_right _ (List.mem_flatMap.2 ⟨br, hbr, hv⟩))
    refine .bind (.ofExcept (taken?_rename h₁ hexits)) fun taken taken' htaken => ?_
    obtain ⟨rfl, hmem⟩ := htaken
    rcases taken with _ | br
    · exact .refl _
    have hargs : br.args.filterMap Operand.var? ⊆ g.boundVars := fun v hv =>
      hexits br (hmem br rfl) (List.mem_append_right _ hv)
    obtain ⟨target, condition, args⟩ := br
    dsimp only [Option.map_some, Branch.rename]
    rw [evalAll_rename h₁ hargs]
    refine .bind (.refl _) fun passed passed' hxs => ?_
    obtain rfl := hxs
    rcases target with t | _
    · rcases ht : g.block? t with _ | next
      · have ht' : g'.block? t = none := by rw [hrenamed t, ht]; rfl
        exact .bind (agree_ofGraph_block_none ht ht') fun _ _ hnever => hnever.elim
      · have hparams : next.paramVars ⊆ g.boundVars := fun v hv =>
          mem_boundVars_of_block? ht (List.mem_append_left _ hv)
        dsimp only
        rw [Run.ofGraph_block ht, Run.ofGraph_block (hrenamed.block ht), pure_bind, pure_bind,
          Block.paramVars_rename]
        exact ih t (h₁.bind hf _ hparams passed)
    · exact .refl _

theorem entry_rename (hrenamed : RenamedBy f g g') : g'.entry = renameBlock f g.entry := by
  rw [entry_eq, entry_eq, hrenamed .entry]
  cases g.block? .entry <;> rfl

/-- **A call of a renamed graph** does what a call of the graph does, if both keep slots for what
they bind. -/
theorem invoke_rename (hrenamed : RenamedBy f g g') (hprovenance : g'.provenance = g.provenance)
    (hread : ∀ b block, g.block? b = some block → block.uses ⊆ g.boundVars)
    (hf : ∀ v ∈ g.boundVars, ∀ w ∈ g.boundVars, f v = f w → v = w)
    (hslots : ∀ v ∈ g.boundVars, v.index < g.varCount ∧ (f v).index < g'.varCount) (fuel : Nat)
    (args : List Value) : g'.invoke env fuel args = g.invoke env fuel args := by
  have hself : g'.self? = g.self? := by rw [self?, self?, hprovenance]
  have harity : g'.arity = g.arity := by
    rw [arity, arity, hself, entry_rename hrenamed, Block.length_params_rename]
  have harguments : g'.arguments = g.arguments.map f := by
    rw [arguments, arguments, entry_rename hrenamed, Block.paramVars_rename]
  have hbound : g.arguments ⊆ g.boundVars := by
    intro v hv
    rw [arguments, entry_eq] at hv
    rcases hb : g.block? .entry with _ | block
    · rw [hb] at hv
      exact absurd hv List.not_mem_nil
    · rw [hb] at hv
      exact mem_boundVars_of_block? hb (List.mem_append_left _ hv)
  -- before the first block all slots are blank, in frames that may differ in size
  have hblank : Frame.Renames f g.boundVars (Array.replicate g.varCount .nothing)
      (Array.replicate g'.varCount .nothing) := by
    intro v hv
    obtain ⟨hlt, hlt'⟩ := hslots v hv
    exact ⟨.nothing, by simp [hlt], by simp [hlt']⟩
  rw [invoke, invoke, run, run, harity, hself, startFrame, startFrame, harguments,
    runFrom_rename hrenamed hread hf fuel .entry (hblank.bind hf _ hbound _)]

end Graph

end Runs

end Interpose
