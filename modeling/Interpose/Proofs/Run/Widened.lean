import Mathlib.Order.Nat
import Interpose.Proofs.Graph.Parameters
import Interpose.Proofs.Run.Renamed

/-!
# A new parameter is not seen by a run

A parameter that is put into a block moves the later ones, and an argument is put into every branch
at the same position, so that each older parameter gets the argument it got before. Whether this is
so is decided where a branch is taken: arguments are read in order and bound to the parameters in
order, and both lists have grown at one place.

Two runs are compared block by block. The new graph has one more slot in its frame. The frames agree
on what the old graph binds, which is all that it reads, so the value of the new slot makes no
difference.
-/

set_option autoImplicit false

namespace Interpose

/-! ## Lists that grow at one place -/

section Lists

variable {α β : Type} {k : Nat}

/-- A pair of entries at one position of two lists is a pair of the list of pairs. -/
theorem zip_insertIdx (as : List α) (bs : List β) (hk : k ≤ as.length)
    (hlen : as.length = bs.length) (a : α) (b : β) :
    (as.insertIdx k a).zip (bs.insertIdx k b) = (as.zip bs).insertIdx k (a, b) := by
  induction k generalizing as bs with
  | zero => rfl
  | succ k ih =>
    match as, bs with
    | [], _ => cases hk
    | _ :: _, [] => cases hlen
    | a' :: as, b' :: bs =>
      simp only [List.insertIdx_succ_cons, List.zip_cons_cons, List.cons.injEq, true_and]
      exact ih as bs (Nat.le_of_succ_le_succ hk) (Nat.succ.inj hlen)

/-- A pair with another key does not change what is found. -/
theorem lookup_insertIdx_ne [DecidableEq α] (l : List (α × β)) {a v : α} (hv : v ≠ a) (b : β) :
    (l.insertIdx k (a, b)).lookup v = l.lookup v := by
  induction k generalizing l with
  | zero => rw [List.insertIdx_zero, List.lookup_cons, beq_false_of_ne hv]
  | succ k ih =>
    cases l with
    | nil => rfl
    | cons e l => rw [List.insertIdx_succ_cons, List.lookup_cons, List.lookup_cons, ih]

/-- A pair with a new key is found. -/
theorem lookup_insertIdx_self [DecidableEq α] (l : List (α × β)) (hk : k ≤ l.length) {a : α}
    (ha : a ∉ l.map Prod.fst) (b : β) : (l.insertIdx k (a, b)).lookup a = some b := by
  induction k generalizing l with
  | zero => rw [List.insertIdx_zero, List.lookup_cons, beq_self_eq_true]
  | succ k ih =>
    cases l with
    | nil => cases hk
    | cons e l =>
      obtain ⟨hne, hrest⟩ := not_or.1 (List.mem_cons.not.1 ha)
      rw [List.insertIdx_succ_cons, List.lookup_cons, beq_false_of_ne hne]
      exact ih l (Nat.le_of_succ_le_succ hk) hrest

/-- Where there are as many values as keys, every key is found. -/
theorem exists_lookup_zip [DecidableEq α] (as : List α) (bs : List β)
    (hlen : as.length = bs.length) {a : α} (ha : a ∈ as) : ∃ b, (as.zip bs).lookup a = some b := by
  induction as generalizing bs with
  | nil => cases ha
  | cons a' as ih =>
    cases bs with
    | nil => cases hlen
    | cons b bs =>
      rw [List.zip_cons_cons, List.lookup_cons]
      by_cases heq : a = a'
      · exact ⟨b, by rw [beq_iff_eq.2 heq]⟩
      · obtain ⟨b', hb'⟩ := ih bs (Nat.succ.inj hlen) ((List.mem_cons.1 ha).resolve_left heq)
        exact ⟨b', by rw [beq_false_of_ne heq, hb']⟩

end Lists

/-! ## What a branch passes -/

/-- What a branch passes for a parameter of the block that it goes to. -/
def Graph.passed? (g : Graph) (br : Branch) (v : Variable) : Option Operand := do
  let target ← g.block? (← br.block?)
  (target.paramVars.zip br.args).lookup v

/-- The branch of the second graph does as that of the first, but that it passes `default` for a new
parameter of `b`. What is passed for a parameter is looked up in either graph with the parameters
that the target has there. -/
structure Branch.Widened (g g' : Graph) (b : BlockId) (new : Variable) (default : Operand)
    (br br' : Branch) : Prop where
  target : br'.target = br.target
  condition : br'.condition = br.condition
  older : ∀ t target, br.target = .block t → g.block? t = some target → ∀ v ∈ target.paramVars,
    ∃ op, g.passed? br v = some op ∧ g'.passed? br' v = some op
  added : br.target = .block b → g'.passed? br' new = some default
  elsewhere : br.target ≠ .block b → br'.args = br.args

/-- The second graph is the first with a parameter at a position of `b` that no run sees. -/
structure Graph.Widened (g : Graph) (b : BlockId) (position : Nat) (ty : Ty) (default : Operand)
    (g' : Graph) : Prop where
  verify : g'.verify = .ok ()
  blocks : ∀ c, Option.Rel (fun block block' =>
    block'.params = (if b = c then block.params.insertIdx position (g.fresh, ty) else block.params)
      ∧ block'.body = block.body
      ∧ List.Forall₂ (Branch.Widened g g' b g.fresh default) block.branches block'.branches)
    (g.block? c) (g'.block? c)
  invoke : ∀ (σ : Type) (env : Surroundings σ) (fuel : Nat) (args : List Value),
    g'.invoke env fuel args = g.invoke env fuel args

namespace Graph

variable {g : Graph} {b c t : BlockId} {block other target : Block} {position : Nat} {ty : Ty}
  {default : Operand} {br : Branch}

theorem passed?_eq (ht : br.target = .block t) (htarget : g.block? t = some target) (v : Variable) :
    g.passed? br v = (target.paramVars.zip br.args).lookup v := by
  have hblock : br.block? = some t := by rw [Branch.block?, ht]
  rw [passed?, hblock]
  exact congrArg (Option.bind · _) htarget

/-- The variables of the parameters grow as the parameters do. -/
theorem paramVars_insertIdx (params : List (Variable × Ty)) (v : Variable) (ty : Ty) :
    (params.insertIdx position (v, ty)).map Prod.fst = (params.map Prod.fst).insertIdx position v :=
  List.map_insertIdx ..

/-- A branch passes one argument for each parameter of its target, and the new one has its place in
both lists. -/
theorem branch_widened (h : g.Coherent) (hg : g.WellFormed) (hb : g.block? b = some block)
    (hle : position ≤ block.params.length) (hc : g.block? c = some other)
    (hbr : br ∈ other.branches) :
    Branch.Widened g (g.withParam b position ty default) b g.fresh default br
      (br.withArgument b position default) := by
  have htakes := hg.balanced c other hc br hbr
  have htarget' : (br.withArgument b position default).target = br.target :=
    Branch.target_withArgument
  have hlength : ∀ {t target}, br.target = .block t → g.block? t = some target →
      target.paramVars.length = br.args.length := by
    intro t target ht htarget
    rw [ht] at htakes
    obtain ⟨_, hfound, hlength⟩ := htakes
    obtain rfl := Option.some.inj (htarget.symm.trans hfound)
    rw [hlength, Block.paramVars, List.length_map]
  have hnew : ∀ {t target}, g.block? t = some target → ∀ v ∈ target.paramVars, v ≠ g.fresh := by
    rintro t target htarget v hv rfl
    exact h.fresh_notMem_boundVars (mem_boundVars_of_block? htarget (List.mem_append_left _ hv))
  -- what is passed to the changed block is looked up in a list of pairs with one pair put in
  have hpassed : br.target = .block b → ∀ v,
      (g.withParam b position ty default).passed? (br.withArgument b position default) v
        = ((block.paramVars.zip br.args).insertIdx position (g.fresh, default)).lookup v := by
    intro ht v
    rw [passed?_eq (htarget'.trans ht) (block?_withParam_of_block? hb), Branch.args_withArgument,
      if_pos ht, Block.paramVars]
    dsimp only
    rw [if_pos rfl, paramVars_insertIdx, zip_insertIdx _ _ (hle.trans_eq (List.length_map _).symm)
      (hlength ht hb)]
    rfl
  refine ⟨htarget', Branch.condition_withArgument, fun t target ht htarget v hv => ?_, fun ht => ?_,
    fun ht => ?_⟩
  · obtain ⟨op, hop⟩ := exists_lookup_zip _ _ (hlength ht htarget) hv
    refine ⟨op, (passed?_eq ht htarget v).trans hop, ?_⟩
    by_cases hbt : b = t
    · subst hbt
      obtain rfl := Option.some.inj (hb.symm.trans htarget)
      rw [hpassed ht, lookup_insertIdx_ne _ (hnew hb v hv), hop]
    · have hargs : (br.withArgument b position default).args = br.args := by
        rw [Branch.args_withArgument, if_neg fun heq =>
          hbt (Target.block.inj (ht.symm.trans heq)).symm]
      rw [passed?_eq (htarget'.trans ht) (block?_withParam_of_block? htarget), hargs,
        Block.paramVars]
      dsimp only
      rw [if_neg hbt]
      exact hop
  · have hcount : (block.paramVars.zip br.args).length = block.params.length := by
      rw [List.length_zip, ← hlength ht hb, Nat.min_self, Block.paramVars, List.length_map]
    rw [hpassed ht, lookup_insertIdx_self _ (hcount ▸ hle)]
    rw [List.map_fst_zip (Nat.le_of_eq (hlength ht hb))]
    exact fun hmem => hnew hb _ hmem rfl
  · rw [Branch.args_withArgument, if_neg ht]

end Graph

/-! ## Frames with one more slot -/

section Frames

variable {vars : List Variable} {frame frame' : Frame} {new : Variable}

/-- A slot that is not among the variables may be filled at will. -/
theorem Frame.Renames.assign_new (h : Renames id vars frame frame') (hnew : new ∉ vars)
    (x : Value) : Renames id vars frame (frame'.setIfInBounds new.index x) := by
  intro v hv
  have hne : new.index ≠ v.index := fun heq => hnew (Variable.index_inj.1 heq ▸ hv)
  rw [id, Array.getElem?_setIfInBounds_ne hne]
  exact h v hv

/-- One more value for one more variable, at the same position of both lists, leaves the others what
they were. -/
theorem Frame.Renames.bind_insertIdx (h : Renames id vars frame frame') (hnew : new ∉ vars)
    (vs : List Variable) (hvs : vs ⊆ vars) {k : Nat} (hk : k ≤ vs.length) (xs : List Value)
    (hlen : xs.length = vs.length) (x : Value) :
    Renames id vars (frame.bind vs xs) (frame'.bind (vs.insertIdx k new) (xs.insertIdx k x)) := by
  have hid : ∀ v ∈ vars, ∀ w ∈ vars, id v = id w → v = w := fun _ _ _ _ heq => heq
  induction k generalizing vs xs frame frame' with
  | zero =>
    have hbound := (h.assign_new hnew x).bind hid vs hvs xs
    rwa [List.map_id] at hbound
  | succ k ih =>
    match vs, xs with
    | [], _ => cases hk
    | _ :: _, [] => cases hlen
    | v :: vs, y :: xs =>
      obtain ⟨hv, hrest⟩ := List.cons_subset.1 hvs
      exact ih (h.assign hid hv y) vs hrest (Nat.le_of_succ_le_succ hk) xs (Nat.succ.inj hlen)

variable {σ : Type} {env : Surroundings σ}

/-- Operands that read what both frames hold have the same values. -/
theorem evalAll_kept (h : Frame.Renames id vars frame frame') {ops : List Operand}
    (hops : ops.filterMap Operand.var? ⊆ vars) :
    Operand.evalAll env frame' ops = Operand.evalAll env frame ops := by
  have hrename : Operand.evalAll env frame' (ops.map (Graph.renameOperand id))
      = Operand.evalAll env frame ops :=
    evalAll_rename h hops
  rwa [show Graph.renameOperand id = id from funext Graph.renameOperand_id, List.map_id] at hrename

/-- A constant among the operands adds its value at its position. -/
theorem agree_evalAll_insertIdx (frame : Frame) {ops : List Operand} {k : Nat} (hk : k ≤ ops.length)
    (x : Value) :
    Run.Agree (fun xs ys => ys = xs.insertIdx k x ∧ xs.length = ops.length) (fun _ _ => True)
      (Operand.evalAll env frame ops) (Operand.evalAll env frame (ops.insertIdx k (.const x))) := by
  induction k generalizing ops with
  | zero =>
    have hconst : Operand.evalAll env frame (.const x :: ops)
        = Operand.evalAll env frame ops >>= fun ys => pure (x :: ys) := rfl
    rw [List.insertIdx_zero, hconst]
    nth_rewrite 1 [← bind_pure (Operand.evalAll env frame ops)]
    refine .bind (agree_evalAll env frame ops) fun xs ys hxs => .pure ?_
    obtain ⟨rfl, hlen⟩ := hxs
    exact ⟨rfl, hlen⟩
  | succ k ih =>
    cases ops with
    | nil => cases hk
    | cons op ops =>
      rw [List.insertIdx_succ_cons, Operand.evalAll, Operand.evalAll]
      refine .bind (.refl _) fun y z hyz => .bind (ih (Nat.le_of_succ_le_succ hk))
        fun xs ys hxs => .pure ?_
      obtain ⟨rfl, hlen⟩ := hxs
      exact ⟨by rw [hyz, List.insertIdx_succ_cons], congrArg (· + 1) hlen⟩

/-- The same statements leave frames that agree. -/
theorem runStatements_kept (h : Frame.Renames id vars frame frame')
    (body : List (Variable × Statement)) (hbound : body.map Prod.fst ⊆ vars)
    (hread : ∀ e ∈ body, e.2.uses ⊆ vars) :
    Run.Agree (Frame.Renames id vars) (fun _ _ => True) (runStatements env frame body)
      (runStatements env frame' body) := by
  have hid : ∀ v ∈ vars, ∀ w ∈ vars, id v = id w → v = w := fun _ _ _ _ heq => heq
  have hbody : (body.map fun e => (id e.1, e.2.map (Graph.renameOperand id))) = body :=
    congrArg Block.body (Graph.renameBlock_id ⟨[], body, []⟩)
  conv in (runStatements env frame' body) => rw [← hbody]
  exact runStatements_rename hid body hbound hread h

end Frames

/-! ## Runs -/

namespace Graph

variable {g : Graph} {b c : BlockId} {block : Block} {position : Nat} {ty : Ty} {σ : Type}
  {env : Surroundings σ}

/-- **No run sees the new parameter**, from whichever block it begins. The induction is on the fuel,
and the frames agree on what the old graph binds whenever a block is entered. -/
theorem runFrom_withParam (h : g.Coherent) (hg : g.WellFormed) (hb : g.block? b = some block)
    (hle : position ≤ block.params.length) (x : Value) (fuel : Nat) {frame frame' : Frame}
    (hframe : Frame.Renames id g.boundVars frame frame') :
    (g.withParam b position ty (.const x)).runFrom env fuel c frame'
      = g.runFrom env fuel c frame := by
  refine (Run.Agree.eq (P := fun _ _ => True) ?_).symm
  induction fuel generalizing c frame frame' with
  | zero => exact .outOfFuel
  | succ fuel ih =>
    have hnone : ∀ {t}, g.block? t = none → (g.withParam b position ty (.const x)).block? t
        = none := by
      intro t ht
      rw [block?_withParam, ht, Option.map_none]
    rw [runFrom, runFrom]
    rcases hc : g.block? c with _ | other
    · exact .bind (agree_ofGraph_block_none hc (hnone hc)) fun _ _ hnever => hnever.elim
    rw [Run.ofGraph_block hc, Run.ofGraph_block (block?_withParam_of_block? hc), pure_bind,
      pure_bind]
    have hbound : other.boundVars ⊆ g.boundVars := fun v hv => mem_boundVars_of_block? hc hv
    have huses := hg.bound c other hc
    have hexits : ∀ br ∈ other.branches, br.uses ⊆ g.boundVars := fun br hbr v hv =>
      huses v (List.mem_append_right _ (List.mem_flatMap.2 ⟨br, hbr, hv⟩))
    refine .bind (runStatements_kept hframe other.body
      (fun v hv => hbound (List.mem_append_right _ hv))
      fun e he v hv => huses v (List.mem_append_left _ (List.mem_flatMap.2 ⟨e, he, hv⟩)))
        fun frame₁ frame₁' h₁ => ?_
    refine .bind (.ofExcept (taken?_map fun br hbr => ?_)) fun taken taken' htaken => ?_
    · rw [Branch.condition_withArgument]
      rcases hcondition : br.condition with _ | v
      · exact .none
      · exact .some (h₁.read (hexits br hbr (List.mem_append_left _ (by simp [hcondition]))))
    obtain ⟨rfl, hmem⟩ := htaken
    rcases taken with _ | br
    · exact .refl _
    have hargs : (br.withArgument b position (.const x)).args.filterMap Operand.var?
        ⊆ g.boundVars := fun v hv =>
      (Branch.uses_withArgument (List.mem_append_right _ hv)).resolve_right
        (by intro hread; cases hread)
        |> hexits br (hmem br rfl)
    have htakes := hg.balanced c other hc br (hmem br rfl)
    dsimp only [Option.map_some]
    rw [evalAll_kept h₁ hargs, Branch.target_withArgument, Branch.args_withArgument]
    rcases ht : br.target with t | _
    · rw [ht] at htakes
      obtain ⟨next, hnext, hlength⟩ := htakes
      have hparams : next.paramVars ⊆ g.boundVars := fun v hv =>
        mem_boundVars_of_block? hnext (List.mem_append_left _ hv)
      dsimp only
      by_cases hbt : b = t
      · -- the branch goes to the block that has grown, and passes one value more
        subst hbt
        obtain rfl := Option.some.inj (hb.symm.trans hnext)
        rw [if_pos rfl]
        refine .bind (agree_evalAll_insertIdx frame₁ (hlength ▸ hle) x)
          fun passed passed' hpassed => ?_
        obtain ⟨rfl, hcount⟩ := hpassed
        rw [Run.ofGraph_block hb, Run.ofGraph_block (block?_withParam_of_block? hb), pure_bind,
          pure_bind, Block.paramVars, Block.paramVars]
        dsimp only
        rw [if_pos rfl, paramVars_insertIdx]
        refine ih (h₁.bind_insertIdx h.fresh_notMem_boundVars _ hparams ?_ passed ?_ x)
        · exact hle.trans_eq (List.length_map _).symm
        · rw [hcount, hlength, Block.paramVars, List.length_map]
      · -- the branch goes elsewhere
        rw [if_neg fun heq => hbt (Target.block.inj heq).symm]
        refine .bind (.refl _) fun passed passed' hpassed => ?_
        obtain rfl := hpassed
        have hentered := h₁.bind (fun _ _ _ _ heq => heq) next.paramVars hparams passed
        rw [List.map_id] at hentered
        rw [Run.ofGraph_block hnext, Run.ofGraph_block (block?_withParam_of_block? hnext),
          pure_bind, pure_bind, Block.paramVars, Block.paramVars]
        dsimp only
        rw [if_neg hbt]
        exact ih hentered
    · -- the branch leaves the graph
      rw [if_neg Target.noConfusion]
      exact .refl _

/-- A call binds the parameters of the entry, which are the same. -/
theorem invoke_withParam (h : g.Coherent) (hg : g.WellFormed) (hb : g.block? b = some block)
    (hne : b ≠ .entry) (hle : position ≤ block.params.length) (x : Value) (fuel : Nat)
    (args : List Value) :
    (g.withParam b position ty (.const x)).invoke env fuel args = g.invoke env fuel args := by
  have hpos : 0 < g.blocks.size := Nat.zero_lt_of_lt (lt_size_of_block? hb)
  obtain ⟨entry, hentry⟩ : ∃ entry, g.block? .entry = some entry :=
    ⟨_, Array.getElem?_eq_getElem hpos⟩
  have hparams : (g.withParam b position ty (.const x)).entry.params = g.entry.params := by
    rw [entry_of_block? hentry, entry_of_block? (block?_withParam_of_block? hentry)]
    exact if_neg hne
  have harguments : (g.withParam b position ty (.const x)).arguments = g.arguments :=
    congrArg (List.map Prod.fst) hparams
  have harity : (g.withParam b position ty (.const x)).arity = g.arity := by
    rw [arity, arity, hparams]
    rfl
  have hbound : g.arguments ⊆ g.boundVars := by
    rw [arguments, entry_of_block? hentry]
    exact fun v hv => mem_boundVars_of_block? hentry (List.mem_append_left _ hv)
  -- the frame that is filled at the start has one more slot
  have hblank : Frame.Renames id g.boundVars (Array.replicate g.varCount .nothing)
      (Array.replicate (g.withParam b position ty (.const x)).varCount .nothing) := by
    intro v hv
    have hlt := h.lt_varCount hv
    have hcount : (g.withParam b position ty (.const x)).varCount = g.varCount + 1 := by
      simp [varCount, withParam]
    refine ⟨.nothing, by simp [hlt], ?_⟩
    rw [hcount, id, Array.getElem?_replicate, if_pos (Nat.lt_succ_of_lt hlt)]
  have hself : (g.withParam b position ty (.const x)).self? = g.self? := rfl
  have hstart := hblank.bind (fun _ _ _ _ heq => heq) g.arguments hbound (g.self?.toList ++ args)
  rw [List.map_id] at hstart
  rw [invoke, invoke, run, run, harity, hself, startFrame, startFrame, harguments,
    runFrom_withParam h hg hb hle x fuel hstart]

/-- The graph with the parameter is in order, its branches pass what they passed, and calls do the
same. -/
theorem widened_withParam (h : g.Coherent) (hg : g.WellFormed) (hb : g.block? b = some block)
    (hne : b ≠ .entry) (hle : position ≤ block.params.length) (ty : Ty) (x : Value) :
    g.Widened b position ty (.const x) (g.withParam b position ty (.const x)) where
  verify := (h.withParam hb hle ty _).verify_eq_ok.2 (hg.withParam hb hle rfl)
  blocks c := by
    rcases hc : g.block? c with _ | other
    · rw [block?_withParam, hc]
      exact .none
    · rw [block?_withParam_of_block? hc]
      refine .some ⟨rfl, rfl, List.forall₂_map_right_iff.2 (List.forall₂_same.2 fun br hbr => ?_)⟩
      exact branch_widened h hg hb hle hc hbr
  invoke _ _ fuel args := invoke_withParam h hg hb hne hle x fuel args

/-- **Adding a parameter is invisible to runs.** Take a graph that is in order, a block that is not
the entry, a position among its parameters and a constant. The parameter is added there; the graph
stays in order; every branch into the block passes for each older parameter what it passed before
and for the new one the constant, branches that go elsewhere are the same; and a call of the graph
does the same as before in any surroundings, those that record all calls among them. Adding behind
the last parameter, with or without a default, is the case of the last position. -/
theorem added_param_invisible (h : Arises g) (hv : g.verify = .ok ()) (hb : g.block? b = some block)
    (hne : b ≠ .entry) (ty : Ty) (x : Value) :
    (∀ position, position ≤ block.params.length →
      ∃ g', g.addParamAt b position ty (.const x) = .ok (g', g.fresh)
        ∧ g.Widened b position ty (.const x) g')
      ∧ (∃ g', g.addParamWith b ty (.const x) = .ok (g', g.fresh)
        ∧ g.Widened b block.params.length ty (.const x) g')
      ∧ ∃ g', g.addParam b ty = .ok (g', g.fresh)
        ∧ g.Widened b block.params.length ty (.const .nothing) g' := by
  have hg := h.coherent.verify_eq_ok.1 hv
  have hlast := Nat.le_refl block.params.length
  refine ⟨fun position hle => ⟨_, ?_, widened_withParam h.coherent hg hb hne hle ty x⟩,
    ⟨_, ?_, widened_withParam h.coherent hg hb hne hlast ty x⟩,
    ⟨_, ?_, widened_withParam h.coherent hg hb hne hlast ty .nothing⟩⟩
  · exact addParamAt_eq_ok.2 ⟨block, hb, rfl, hle, rfl, rfl⟩
  · exact addParamWith_eq_ok.2 ⟨block, hb, rfl, rfl, rfl⟩
  · exact addParamWith_eq_ok.2 ⟨block, hb, rfl, rfl, rfl⟩

/-- Edits that make a block with two parameters, which the entry goes to on both of its branches and
which goes back to itself. -/
def swappingEdits : List Edit := [
  .addBlock,
  .addParam ⟨1⟩ .any,
  .addParam ⟨1⟩ .any,
  .pushTo .entry (.plain (.call (.global "start") [])),
  .branchUnless .entry ⟨1⟩ [.const .nothing, .var ⟨2⟩] ⟨2⟩,
  .branchTo .entry ⟨1⟩ [.var ⟨2⟩, .const .nothing],
  .pushTo ⟨1⟩ (.plain (.call (.global "more") [.var ⟨0⟩])),
  .branchUnless ⟨1⟩ ⟨1⟩ [.var ⟨1⟩, .var ⟨0⟩] ⟨3⟩,
  .leaveWith ⟨1⟩ (.var ⟨1⟩)]

/-- The block with two parameters that swaps them when it goes back to itself. -/
def swapping : Graph := (Graph.workAll .empty (swappingEdits.map .edit)).1

/-- A parameter between the two that are swapped. -/
theorem added_param_invisible_swapping : Arises swapping ∧ swapping.verify = .ok ()
    ∧ (swapping.block? ⟨1⟩).map (·.params.length) = some 2
    ∧ ∃ g', swapping.addParamAt ⟨1⟩ 1 .any (.const .nothing) = .ok (g', ⟨4⟩)
      ∧ swapping.Widened ⟨1⟩ 1 .any (.const .nothing) g' := by
  have harises : Arises swapping := (Arises.initial .empty).workAll (swappingEdits.map .edit)
  have hverify : swapping.verify = .ok () := by cbv
  have hcount : (swapping.block? ⟨1⟩).map (·.params.length) = some 2 := by cbv
  obtain ⟨block, hb, hlength⟩ := Option.map_eq_some_iff.1 hcount
  have hfresh : swapping.fresh = ⟨4⟩ := by cbv
  have hle : 1 ≤ block.params.length := by rw [hlength]; decide
  have hadded := (added_param_invisible harises hverify hb (by decide) .any .nothing).1 1 hle
  rw [hfresh] at hadded
  exact ⟨harises, hverify, hcount, hadded⟩

end Graph

end Interpose
