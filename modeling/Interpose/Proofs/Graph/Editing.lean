import Interpose.Proofs.Graph.WellFormed

/-!
# Edits as data

A caller edits a graph by one call after another, some of which are refused. Here such a call is
data: an `Edit` says which edit is made and with which arguments, `Edit.apply` makes it, and a
refused edit leaves the graph as it was. A list of edits is then a whole history of a graph.

Nineteen edits make nine different changes. `Change` lists them with everything that an edit has
checked by then, and `Edit.change` is the one place where the edits are told apart. What every edit
keeps is proved about changes.
-/

set_option autoImplicit false

namespace Interpose

namespace Graph

/-- The edits of a graph with their arguments. -/
inductive Edit : Type 1
  | addBlock
  | addParam (b : BlockId) (ty : Ty)
  | addParamWith (b : BlockId) (ty : Ty) (default : Operand)
  | addParamAt (b : BlockId) (position : Nat) (ty : Ty) (default : Operand)
  | push (s : Statement)
  | pushTo (b : BlockId) (s : Statement)
  | prepend (s : Statement)
  | prependTo (b : BlockId) (s : Statement)
  | insertBefore (v : Variable) (s : Statement)
  | insertAfter (v : Variable) (s : Statement)
  | set (v : Variable) (s : Statement)
  | delete (v : Variable)
  /-- The function may remember what it has seen; `t` is what it remembers at first. -/
  | replaceOperands {τ : Type} (f : Operand → StateM τ (Option Operand)) (t : τ)
  /-- Calls go through the hook that transforms the graph. -/
  | recurse (hook : HookId)
  | addBranch (b : BlockId) (br : Branch)
  | branchTo (b target : BlockId) (args : List Operand)
  | branchUnless (b target : BlockId) (args : List Operand) (c : Variable)
  | leaveWith (b : BlockId) (value : Operand)
  | internLine (l : SourceLine)

/-- The result of an edit that hands out a variable. -/
def handing (r : Except GraphError (Graph × Variable)) :
    Except GraphError (Graph × Option Variable) :=
  r.map fun (g, v) => (g, some v)

/-- The result of an edit that hands out none. -/
def keeping {α : Type} (r : Except GraphError (Graph × α)) :
    Except GraphError (Graph × Option Variable) :=
  r.map fun (g, _) => (g, none)

/-- The graph that the edit makes, and the variable that it hands out. -/
def Edit.run (g : Graph) : Edit → Except GraphError (Graph × Option Variable)
  | .addBlock => .ok (g.addBlock.1, none)
  | .addParam b ty => handing (g.addParam b ty)
  | .addParamWith b ty default => handing (g.addParamWith b ty default)
  | .addParamAt b position ty default => handing (g.addParamAt b position ty default)
  | .push s => handing (g.push s)
  | .pushTo b s => handing (g.pushTo b s)
  | .prepend s => handing (g.prepend s)
  | .prependTo b s => handing (g.prependTo b s)
  | .insertBefore v s => handing (g.insertBefore v s)
  | .insertAfter v s => handing (g.insertAfter v s)
  | .set v s => keeping (g.set v s)
  | .delete v => keeping (g.delete v)
  | .replaceOperands f t => keeping ((g.replaceOperandsM f).run t).1
  | .recurse hook => .ok ((g.routeCalls (.const (.hook hook))).1, none)
  | .addBranch b br => (g.addBranch b br).map (·, none)
  | .branchTo b target args => (g.branchTo b target args).map (·, none)
  | .branchUnless b target args c => (g.branchUnless b target args c).map (·, none)
  | .leaveWith b value => (g.leaveWith b value).map (·, none)
  | .internLine l => .ok ((g.internLine l).1, none)

/-- The graph after a call of the edit, and the variables that it handed out. A refused edit has no
effect. -/
def Edit.apply (g : Graph) (e : Edit) : Graph × List Variable :=
  match e.run g with
  | .ok (g', new) => (g', new.toList)
  | .error _ => (g, [])

/-- The graph after a list of calls. -/
def editAll (g : Graph) (es : List Edit) : Graph := es.foldl (fun g e => (e.apply g).1) g

/-- What an accepted edit has made of the graph, and which variable it handed out. -/
inductive Change (g : Graph) : Graph → Option Variable → Prop
  | noted (lines : List SourceLine) : Change g { g with lines } none
  | block : Change g g.addBlock.1 none
  | param {b : BlockId} {block : Block} {position : Nat} {default : Operand} (ty : Ty) :
    g.block? b = some block → position ≤ block.params.length →
    (∀ v, default.var? = some v → g.isDefined v = true) →
    Change g (g.withParam b position ty default) (some g.fresh)
  | statement {b : BlockId} {block : Block} {position : Nat} {s : Statement} :
    g.block? b = some block → position ≤ block.body.length →
    g.checkStatement b position s = .ok () →
    Change g (g.inserted b position s) (some g.fresh)
  | set {v : Variable} {b : BlockId} {i : Nat} {s : Statement} :
    g.site? v = some (.statement b i) → g.checkStatement b i s = .ok () →
    Change g
      (g.modifyBlock b fun block => { block with body := block.body.modify i fun e => (e.1, s) })
      none
  | delete {v : Variable} {b : BlockId} {i : Nat} :
    g.site? v = some (.statement b i) → g.isUsed v = false → Change g (g.erased b i v) none
  | operands {g' : Graph} {τ : Type} {f : Operand → StateM τ (Option Operand)} {t t' : τ}
    {n : Nat} : (g.replaceOperandsM f).run t = (.ok (g', n), t') → Change g g' none
  | routed (hook : HookId) : Change g (g.routeCalls (.const (.hook hook))).1 none
  | branch {b : BlockId} {block : Block} {br : Branch} :
    g.block? b = some block → block.isClosed = false → g.Takes br.target br.args.length →
    (∀ v ∈ br.uses, g.isDefined v = true) →
    Change g (g.modifyBlock b fun block => { block with branches := block.branches ++ [br] }) none

variable {g g' : Graph} {new : Option Variable}

/-! ## From edits to changes -/

theorem handing_eq_ok {r : Except GraphError (Graph × Variable)} :
    handing r = .ok (g', new) ↔ ∃ v, r = .ok (g', v) ∧ new = some v := by
  unfold handing
  rcases r with e | ⟨g₁, v⟩
  · exact ⟨nofun, nofun⟩
  · constructor
    · intro h
      cases h
      exact ⟨v, rfl, rfl⟩
    · rintro ⟨v', hr, rfl⟩
      cases hr
      rfl

theorem keeping_eq_ok {α : Type} {r : Except GraphError (Graph × α)} :
    keeping r = .ok (g', new) ↔ ∃ a, r = .ok (g', a) ∧ new = none := by
  unfold keeping
  rcases r with e | ⟨g₁, a⟩
  · exact ⟨nofun, nofun⟩
  · constructor
    · intro h
      cases h
      exact ⟨a, rfl, rfl⟩
    · rintro ⟨a', hr, rfl⟩
      cases hr
      rfl

theorem map_none_eq_ok {r : Except GraphError Graph} :
    r.map (·, (none : Option Variable)) = .ok (g', new) ↔ r = .ok g' ∧ new = none := by
  rcases r with e | g₁
  · exact ⟨nofun, nofun⟩
  · constructor
    · intro h
      cases h
      exact ⟨rfl, rfl⟩
    · rintro ⟨hr, rfl⟩
      cases hr
      rfl

/-- The line table is all that noting a line changes. -/
theorem internLine_eq (g : Graph) (l : SourceLine) :
    ∃ lines, (g.internLine l).1 = { g with lines } := by
  unfold internLine
  split
  · exact ⟨g.lines, rfl⟩
  · exact ⟨_, rfl⟩

/-- A target takes as many arguments as are counted for it. -/
theorem targetArity_iff_takes {t : Target} {n : Nat} : g.targetArity t = .ok n ↔ g.Takes t n := by
  rw [targetArity_eq_ok]
  cases t <;> rfl

theorem Change.of_addParamAt {b : BlockId} {position : Nat} {ty : Ty} {default : Operand}
    {v : Variable} (h : g.addParamAt b position ty default = .ok (g', v)) :
    Change g g' (some v) := by
  obtain ⟨block, hb, hdefault, hle, rfl, rfl⟩ := addParamAt_eq_ok.1 h
  exact .param ty hb hle (checkOperand_eq_ok.1 hdefault)

theorem Change.of_addParamWith {b : BlockId} {ty : Ty} {default : Operand} {v : Variable}
    (h : g.addParamWith b ty default = .ok (g', v)) : Change g g' (some v) := by
  obtain ⟨block, -, h⟩ := bind_eq_ok.1 h
  exact .of_addParamAt h

theorem Change.of_pushTo {b : BlockId} {s : Statement} {v : Variable}
    (h : g.pushTo b s = .ok (g', v)) : Change g g' (some v) := by
  obtain ⟨block, hb, hcheck, rfl, rfl⟩ := pushTo_eq_ok.1 h
  exact .statement hb (Nat.le_refl _) hcheck

theorem Change.of_prependTo {b : BlockId} {s : Statement} {v : Variable}
    (h : g.prependTo b s = .ok (g', v)) : Change g g' (some v) := by
  obtain ⟨block, hb, hcheck, rfl, rfl⟩ := prependTo_eq_ok.1 h
  exact .statement hb (Nat.zero_le _) hcheck

theorem Change.of_addBranch {b : BlockId} {br : Branch} (h : g.addBranch b br = .ok g') :
    Change g g' none := by
  obtain ⟨block, hb, hopen, harity, huses, rfl⟩ := addBranch_eq_ok.1 h
  exact .branch hb hopen (targetArity_iff_takes.1 harity) huses

/-- **An accepted edit makes one of the nine changes**, and everything that the change needs was
checked. In a coherent graph the place of a statement can be relied on. -/
theorem Edit.change (hg : g.Coherent) {e : Edit} (h : e.run g = .ok (g', new)) :
    Change g g' new := by
  cases e with
  | addBlock =>
    cases h
    exact .block
  | addParam b ty =>
    obtain ⟨v, he, rfl⟩ := handing_eq_ok.1 h
    exact .of_addParamWith he
  | addParamWith b ty default =>
    obtain ⟨v, he, rfl⟩ := handing_eq_ok.1 h
    exact .of_addParamWith he
  | addParamAt b position ty default =>
    obtain ⟨v, he, rfl⟩ := handing_eq_ok.1 h
    exact .of_addParamAt he
  | push s =>
    obtain ⟨v, he, rfl⟩ := handing_eq_ok.1 h
    exact .of_pushTo he
  | pushTo b s =>
    obtain ⟨v, he, rfl⟩ := handing_eq_ok.1 h
    exact .of_pushTo he
  | prepend s =>
    obtain ⟨v, he, rfl⟩ := handing_eq_ok.1 h
    exact .of_prependTo he
  | prependTo b s =>
    obtain ⟨v, he, rfl⟩ := handing_eq_ok.1 h
    exact .of_prependTo he
  -- here the edit names a variable, and the table says where it stands
  | insertBefore v s =>
    obtain ⟨_, he, rfl⟩ := handing_eq_ok.1 h
    obtain ⟨b, i, hv, hcheck, rfl, rfl⟩ := insertBefore_eq_ok.1 he
    obtain ⟨block, _, hb, hi⟩ := hg.statement_of_site hv
    exact .statement hb (Nat.le_of_lt (List.getElem?_eq_some_iff.1 hi).1) hcheck
  | insertAfter v s =>
    obtain ⟨_, he, rfl⟩ := handing_eq_ok.1 h
    obtain ⟨b, i, hv, hcheck, rfl, rfl⟩ := insertAfter_eq_ok.1 he
    obtain ⟨block, _, hb, hi⟩ := hg.statement_of_site hv
    exact .statement hb (List.getElem?_eq_some_iff.1 hi).1 hcheck
  | set v s =>
    obtain ⟨_, he, rfl⟩ := keeping_eq_ok.1 h
    obtain ⟨b, i, hv, hcheck, rfl, -⟩ := set_eq_ok.1 he
    exact .set hv hcheck
  | delete v =>
    obtain ⟨_, he, rfl⟩ := keeping_eq_ok.1 h
    obtain ⟨b, i, hv, hunused, rfl, -⟩ := delete_eq_ok.1 he
    exact .delete hv hunused
  | replaceOperands f t =>
    obtain ⟨n, he, rfl⟩ := keeping_eq_ok.1 h
    exact .operands (Prod.ext he rfl)
  | recurse hook =>
    cases h
    exact .routed hook
  | addBranch b br =>
    obtain ⟨he, rfl⟩ := map_none_eq_ok.1 h
    exact .of_addBranch he
  | branchTo b target args =>
    obtain ⟨he, rfl⟩ := map_none_eq_ok.1 h
    exact .of_addBranch he
  | branchUnless b target args c =>
    obtain ⟨he, rfl⟩ := map_none_eq_ok.1 h
    exact .of_addBranch he
  | leaveWith b value =>
    obtain ⟨he, rfl⟩ := map_none_eq_ok.1 h
    exact .of_addBranch he
  | internLine l =>
    obtain ⟨lines, hlines⟩ := internLine_eq g l
    cases h
    rw [hlines]
    exact .noted lines

/-! ## What changes keep -/

/-- Every change leaves the table in agreement with the blocks. -/
theorem Change.coherent (h : Change g g' new) (hg : g.Coherent) : g'.Coherent := by
  cases h with
  | noted lines => exact hg
  | block => exact hg.addBlock
  | param ty hb hle _ => exact hg.withParam hb hle ty _
  | statement hb hle _ => exact hg.inserted hb hle _
  | set => exact hg.withStatement _ _ _
  | delete hv _ => exact hg.erased hv
  | operands h => exact hg.replaceOperandsM h
  | routed hook => exact hg.routeCalls _
  | branch => exact hg.modifyBlock _ (fun _ => rfl) fun _ => rfl

/-- The counter goes up by the variable that is handed out, which is the next one. -/
theorem Change.counts (h : Change g g' new) : g'.varCount = g.varCount + new.toList.length
    ∧ ∀ v ∈ new, v = g.fresh := by
  cases h with
  | noted | block | set | branch => exact ⟨rfl, nofun⟩
  | param ty hb hle _ =>
    refine ⟨?_, fun v hv => (Option.some.inj hv).symm⟩
    simp [varCount, withParam]
  | statement hb hle _ =>
    refine ⟨?_, fun v hv => (Option.some.inj hv).symm⟩
    simp [varCount, inserted]
  | delete hv _ =>
    refine ⟨?_, nofun⟩
    simp [varCount, erased]
  | operands h =>
    refine ⟨?_, nofun⟩
    rw [varCount, (replaceOperandsM_vars h).1]
    rfl
  | routed hook => exact ⟨rfl, nofun⟩

/-- An edit that keeps a property where it is accepted keeps it in any case. -/
theorem Edit.apply_keeps {P : Graph → Prop} (hg : g.Coherent) (h : P g)
    (hchange : ∀ g' new, Change g g' new → P g') (e : Edit) : P (e.apply g).1 := by
  unfold Edit.apply
  rcases hrun : e.run g with _ | ⟨g', new⟩
  · exact h
  · exact hchange g' new (Edit.change hg hrun)

/-- Edits keep the table in agreement with the blocks, whether they are accepted or not. -/
theorem Edit.coherent_apply (hg : g.Coherent) (e : Edit) : (e.apply g).1.Coherent :=
  e.apply_keeps hg hg fun _ _ hchange => hchange.coherent hg

end Graph

end Interpose
