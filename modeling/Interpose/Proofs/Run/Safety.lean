import Interpose.Run.Graph
import Interpose.Proofs.Graph.WellFormed
import Interpose.Proofs.Run.Basic

/-!
# A verified graph runs safely

The frame of a run begins with a filling that no program is meant to see. The *strict* run has no
filling: its registers hold only what was assigned in the same run, and to read another variable is
a fault. For a graph in order both runs are the same, whatever the filling. The invariant is that of
walks: a run that arrives at a block has walked there, so all that the blocks of the walk bind is
assigned.
-/

set_option autoImplicit false

namespace Interpose

/-! ## The strict run -/

/-- The values of the variables that were assigned so far. -/
abbrev Registers := Variable → Option Value

namespace Registers

/-- The registers with one value assigned. -/
def assign (m : Registers) (v : Variable) (x : Value) : Registers :=
  fun w => if w = v then some x else m w

/-- The registers with values assigned to variables, as far as both lists go. -/
def bind (m : Registers) : List Variable → List Value → Registers
  | v :: vs, x :: xs => Registers.bind (m.assign v x) vs xs
  | _, _ => m

/-- The value of a variable, which must have been assigned. -/
def read (m : Registers) (v : Variable) : Except Fault Value := (m v).elim (.error (.noSlot v)) .ok

end Registers

namespace Strict

variable {σ : Type}

/-- The value of an operand. -/
def operand (env : Surroundings σ) (m : Registers) : Operand → Run σ Value
  | .var v => Run.ofExcept (m.read v)
  | .const c => pure c
  | .global name => do
    match env.global (← get) name with
    | some x => return x
    | none => throw (.trap (.undefinedGlobal name))

/-- The values of operands, read in order. -/
def operands (env : Surroundings σ) (m : Registers) : List Operand → Run σ (List Value)
  | [] => return []
  | op :: ops => do
    let x ← operand env m op
    return x :: (← operands env m ops)

/-- The result of an operation. -/
def operation (env : Surroundings σ) (m : Registers) : Operation → Run σ Value
  | .operand op => operand env m op
  | .call callee args => do
    let f ← operand env m callee
    let args ← operands env m args
    env.call f args

/-- The registers after statements. -/
def statements (env : Surroundings σ) (m : Registers) :
    List (Variable × Statement) → Run σ Registers
  | [] => return m
  | (v, s) :: rest => do
    let x ← operation env m s.operation
    statements env (m.assign v x) rest

/-- The first branch that is taken. -/
def taken? (m : Registers) : List Branch → Except Fault (Option Branch)
  | [] => .ok none
  | br :: rest =>
    match br.condition with
    | none => .ok (some br)
    | some c => do
      let holds ← (← m.read c).asBool.mapError .trap
      if holds then taken? m rest else return some br

/-- The run from the beginning of a block. -/
def runFrom (env : Surroundings σ) (g : Graph) : Nat → BlockId → Registers → Run σ Value
  | 0, _, _ => .outOfFuel
  | n + 1, b, m => do
    let block ← Run.ofGraph (g.block b)
    let m ← statements env m block.body
    match ← Run.ofExcept (taken? m block.branches) with
    | none => throw (.noBranch b)
    | some br =>
      let passed ← operands env m br.args
      match br.target with
      | .leave => Run.ofExcept (passed.head?.elim (.error .emptyReturn) .ok)
      | .block t =>
        let next ← Run.ofGraph (g.block t)
        runFrom env g n t (m.bind next.paramVars passed)

/-- The run on values for the entry's parameters. Nothing else is assigned when it begins. -/
def run (env : Surroundings σ) (g : Graph) (fuel : Nat) (args : List Value) : Run σ Value :=
  runFrom env g fuel .entry (Registers.bind (fun _ => none) g.arguments args)

end Strict

/-! ## Registers inside a frame -/

/-- All that is assigned stands in the frame. -/
def Registers.Within (m : Registers) (frame : Frame) : Prop :=
  ∀ v x, m v = some x → frame[v.index]? = some x

/-- The variables are assigned. -/
def Registers.Assigned (m : Registers) (vs : List Variable) : Prop := ∀ v ∈ vs, (m v).isSome

namespace Registers

variable {m : Registers} {frame : Frame}

theorem Within.assign (h : m.Within frame) {v : Variable} (x : Value) (hv : v.index < frame.size) :
    (m.assign v x).Within (frame.setIfInBounds v.index x) := by
  intro w y hy
  unfold Registers.assign at hy
  by_cases hwv : w = v
  · subst hwv
    rw [if_pos rfl] at hy
    rw [Array.getElem?_setIfInBounds_self_of_lt hv, hy]
  · rw [if_neg hwv] at hy
    have hindex : v.index ≠ w.index := fun heq => hwv (Variable.index_inj.1 heq).symm
    rw [Array.getElem?_setIfInBounds_ne hindex]
    exact h w y hy

theorem Within.bind (h : m.Within frame) (vs : List Variable) (xs : List Value)
    (hvs : ∀ v ∈ vs, v.index < frame.size) : (m.bind vs xs).Within (frame.bind vs xs) := by
  induction vs generalizing m frame xs with
  | nil => exact h
  | cons v vs ih =>
    cases xs with
    | nil => exact h
    | cons x xs =>
      refine ih (h.assign x (hvs v List.mem_cons_self)) xs fun w hw => ?_
      rw [Array.size_setIfInBounds]
      exact hvs w (List.mem_cons_of_mem v hw)

theorem Assigned.assign (m : Registers) (v : Variable) (x : Value) {vs : List Variable}
    (h : m.Assigned vs) : (m.assign v x).Assigned (v :: vs) := by
  intro w hw
  unfold Registers.assign
  by_cases hwv : w = v
  · rw [if_pos hwv]
    rfl
  · rw [if_neg hwv]
    exact h w ((List.mem_cons.1 hw).resolve_left hwv)

/-- Binding assigns the bound variables if there are values for all of them, and takes nothing
away. -/
theorem Assigned.bind {vs : List Variable} {xs : List Value} {ws : List Variable}
    (h : m.Assigned ws) (hlen : vs.length ≤ xs.length) : (m.bind vs xs).Assigned (ws ++ vs) := by
  induction vs generalizing m xs ws with
  | nil => simpa [Registers.bind] using h
  | cons v vs ih =>
    cases xs with
    | nil => simp at hlen
    | cons x xs =>
      have hrest := ih (h.assign m v x) (Nat.le_of_succ_le_succ hlen)
      intro w hw
      refine hrest w ?_
      simpa [or_left_comm] using hw

/-- A variable that is assigned is read alike. -/
theorem Within.read (h : m.Within frame) {v : Variable} (hv : (m v).isSome) :
    m.read v = frame.read v := by
  obtain ⟨x, hx⟩ := Option.isSome_iff_exists.1 hv
  rw [Registers.read, Frame.read, hx, h v x hx]
  rfl

end Registers

/-! ## Agreement of the two runs

Each part of a run reads only assigned variables, so the strict part and the other agree. The faults
are those that the surroundings explain. -/

/-- A property of faults that covers undefined globals, conditions without a truth value and the
faults of calls, and whatever else it likes. -/
structure Explains {σ : Type} (env : Surroundings σ) (P : Fault → σ → Prop) : Prop where
  undefined : ∀ name s, env.global s name = none → P (.trap (.undefinedGlobal name)) s
  condition : ∀ ty s, ty ≠ .bool → P (.trap (.notBoolean ty)) s
  call : ∀ f args s e s', env.call f args s = some (.error e, s') → P e s'

/-- Where all faults are covered there is nothing to explain. -/
theorem explains_any {σ : Type} (env : Surroundings σ) : Explains env fun _ _ => True :=
  ⟨fun _ _ _ => trivial, fun _ _ _ => trivial, fun _ _ _ _ _ _ => trivial⟩

/-- A value is a truth value, or its type is another one and a condition stops at it. -/
theorem Value.asBool_cases (x : Value) :
    (∃ b, x = .bool b) ∨ x.typeOf ≠ .bool ∧ x.asBool = .error (.notBoolean x.typeOf) := by
  cases x with
  | bool b => exact .inl ⟨b, rfl⟩
  | _ => exact .inr ⟨nofun, rfl⟩

/-- A block that exists is found without a fault. -/
theorem Run.ofGraph_block {σ : Type} {g : Graph} {b : BlockId} {block : Block}
    (hb : g.block? b = some block) : (Run.ofGraph (g.block b) : Run σ Block) = pure block := by
  rw [Graph.block_eq_ok.2 hb]
  rfl

section Agreement

variable {σ : Type} {env : Surroundings σ} {P : Fault → σ → Prop} {m : Registers} {frame : Frame}

/-- A call agrees with itself. -/
theorem agree_call (hP : Explains env P) (f : Value) (args : List Value) :
    Run.Agree Eq P (env.call f args) (env.call f args) := by
  intro s
  rcases hr : env.call f args s with _ | ⟨r | x, s'⟩
  · exact .inl ⟨rfl, rfl⟩
  · exact .inr (.inl ⟨r, s', rfl, rfl, hP.call f args s r s' hr⟩)
  · exact .inr (.inr ⟨x, x, s', rfl, rfl, rfl⟩)

theorem agree_operand (hP : Explains env P) (hm : m.Within frame) (op : Operand)
    (hop : m.Assigned op.var?.toList) :
    Run.Agree Eq P (Strict.operand env m op) (op.eval env frame) := by
  cases op with
  | const c => exact .pure rfl
  | var v =>
    have hv : (m v).isSome := hop v (by simp [Operand.var?])
    obtain ⟨x, hx⟩ := Option.isSome_iff_exists.1 hv
    have hread : m.read v = .ok x := by rw [Registers.read, hx]; rfl
    intro s
    refine .inr (.inr ⟨x, x, s, ?_, ?_, rfl⟩)
    · rw [Strict.operand, hread]
      rfl
    · rw [Operand.eval, ← hm.read hv, hread]
      rfl
  -- a global that is not there is a fault of both, and one that is explained
  | global name =>
    intro s
    have hstrict : Strict.operand env m (.global name) s = (match env.global s name with
      | some x => pure x
      | none => throw (.trap (.undefinedGlobal name)) : Run σ Value) s := rfl
    have heval : Operand.eval env frame (.global name) s = (match env.global s name with
      | some x => pure x
      | none => throw (.trap (.undefinedGlobal name)) : Run σ Value) s := rfl
    rw [hstrict, heval]
    rcases hg : env.global s name with _ | x
    · exact .inr (.inl ⟨_, s, rfl, rfl, hP.undefined name s hg⟩)
    · exact .inr (.inr ⟨x, x, s, rfl, rfl, rfl⟩)

theorem agree_operands (hP : Explains env P) (hm : m.Within frame) (ops : List Operand)
    (hops : m.Assigned (ops.filterMap Operand.var?)) :
    Run.Agree (fun xs ys => xs = ys ∧ xs.length = ops.length) P (Strict.operands env m ops)
      (Operand.evalAll env frame ops) := by
  induction ops with
  | nil => exact .pure ⟨rfl, rfl⟩
  | cons op ops ih =>
    have hop : m.Assigned op.var?.toList := by
      intro v hv
      exact hops v (List.mem_filterMap.2 ⟨op, List.mem_cons_self, by simpa using hv⟩)
    have hrest : m.Assigned (ops.filterMap Operand.var?) := by
      intro v hv
      obtain ⟨op', hop', hv⟩ := List.mem_filterMap.1 hv
      exact hops v (List.mem_filterMap.2 ⟨op', List.mem_cons_of_mem op hop', hv⟩)
    refine .bind (agree_operand hP hm op hop) fun x y hxy => .bind (ih hrest)
      fun xs ys hxs => .pure ?_
    obtain ⟨rfl, hlen⟩ := hxs
    rw [hxy]
    exact ⟨rfl, congrArg (· + 1) hlen⟩

theorem agree_operation (hP : Explains env P) (hm : m.Within frame) (e : Operation)
    (he : m.Assigned e.uses) : Run.Agree Eq P (Strict.operation env m e) (e.eval env frame) := by
  cases e with
  | operand op =>
    refine agree_operand hP hm op fun v hv => he v ?_
    simpa [Operation.uses, Operation.operands] using hv
  | call callee args =>
    have hcallee : m.Assigned callee.var?.toList := by
      intro v hv
      exact he v (List.mem_filterMap.2 ⟨callee, List.mem_cons_self, by simpa using hv⟩)
    have hargs : m.Assigned (args.filterMap Operand.var?) := by
      intro v hv
      obtain ⟨op, hop, hv⟩ := List.mem_filterMap.1 hv
      exact he v (List.mem_filterMap.2 ⟨op, List.mem_cons_of_mem callee hop, hv⟩)
    refine .bind (agree_operand hP hm callee hcallee) fun f f' hf => ?_
    refine .bind (agree_operands hP hm args hargs) fun xs ys hxs => ?_
    obtain ⟨rfl, -⟩ := hxs
    rw [hf]
    exact agree_call hP f' xs

/-- Statements that read only what is assigned or bound by statements before them agree, and
afterwards all that they bind is assigned. -/
theorem agree_statements (hP : Explains env P) (body : List (Variable × Statement)) {m : Registers}
    {frame : Frame} (hm : m.Within frame) {ws : List Variable} (hws : m.Assigned ws)
    (hslots : ∀ v ∈ body.map Prod.fst, v.index < frame.size)
    (huses : ∀ (i : Nat) (w : Variable) (s : Statement), body[i]? = some (w, s) → ∀ v ∈ s.uses,
      v ∈ ws ∨ v ∈ (body.map Prod.fst).take i) :
    Run.Agree (fun m' frame' => m'.Within frame' ∧ m'.Assigned (ws ++ body.map Prod.fst)
        ∧ frame'.size = frame.size) P
      (Strict.statements env m body) (runStatements env frame body) := by
  induction body generalizing m frame ws with
  | nil => exact .pure ⟨hm, by simpa using hws, rfl⟩
  | cons e body ih =>
    obtain ⟨v, s⟩ := e
    have hs : m.Assigned s.uses := fun u hu =>
      hws u ((huses 0 v s rfl u hu).resolve_right (by simp))
    refine .bind (agree_operation hP hm s.operation hs) fun x y hxy => ?_
    obtain rfl := hxy
    have hv : v.index < frame.size := hslots v List.mem_cons_self
    -- the variable joins those that are assigned, so that positions count from the next statement
    -- on
    have hrest := ih (hm.assign x hv) (hws.assign m v x)
      (fun w hw => by
        rw [Array.size_setIfInBounds]
        exact hslots w (List.mem_cons_of_mem v hw))
      (fun i w s' hi u hu => by
        have hbefore := huses (i + 1) w s' (by simpa using hi) u hu
        simpa [or_left_comm, or_assoc] using hbefore)
    refine hrest.mono fun m' frame' h => ⟨h.1, fun w hw => h.2.1 w ?_, ?_⟩
    · simpa [or_left_comm] using hw
    · rw [h.2.2, Array.size_setIfInBounds]

/-- The first taken branch of a block that ends as it should. -/
theorem taken?_eq (hm : m.Within frame) {branches : List Branch}
    (hends : ∃ front last, branches = front ++ [last] ∧ last.condition = none)
    (hconditions : ∀ br ∈ branches, m.Assigned br.condition.toList) :
    (∃ br ∈ branches, Strict.taken? m branches = .ok (some br)
      ∧ taken? frame branches = .ok (some br))
      ∨ ∃ ty, ty ≠ .bool ∧ Strict.taken? m branches = .error (.trap (.notBoolean ty))
        ∧ taken? frame branches = .error (.trap (.notBoolean ty)) := by
  induction branches with
  | nil =>
    obtain ⟨front, last, hnil, -⟩ := hends
    simp at hnil
  | cons br rest ih =>
    rcases hc : br.condition with _ | c
    · refine .inl ⟨br, List.mem_cons_self, ?_, ?_⟩
      · simp [Strict.taken?, hc]
      · simp [taken?, hc]
    · have hassigned : (m c).isSome := hconditions br List.mem_cons_self c (by simp [hc])
      obtain ⟨x, hx⟩ := Option.isSome_iff_exists.1 hassigned
      have hread : m.read c = .ok x := by rw [Registers.read, hx]; rfl
      have hread' : frame.read c = .ok x := by rw [← hm.read hassigned, hread]
      -- a branch with a condition is not the last one
      have hrest : ∃ front last, rest = front ++ [last] ∧ last.condition = none := by
        obtain ⟨front, last, heq, hlast⟩ := hends
        cases front with
        | nil =>
          obtain ⟨rfl, -⟩ := List.cons.inj heq
          rw [hc] at hlast
          cases hlast
        | cons br' front => exact ⟨front, last, (List.cons.inj heq).2, hlast⟩
      have ih := ih hrest fun br' hbr' => hconditions br' (List.mem_cons_of_mem br hbr')
      have hstrict : Strict.taken? m (br :: rest) = (x.asBool.mapError .trap >>= fun holds =>
          if holds then Strict.taken? m rest else return some br) := by
        rw [Strict.taken?, hc]
        dsimp only
        rw [hread]
        rfl
      have htaken : taken? frame (br :: rest) = (x.asBool.mapError .trap >>= fun holds =>
          if holds then taken? frame rest else return some br) := by
        rw [taken?, hc]
        dsimp only
        rw [hread']
        rfl
      rw [hstrict, htaken]
      rcases x.asBool_cases with ⟨holds, rfl⟩ | ⟨hty, hx⟩
      · cases holds with
        | false => exact .inl ⟨br, List.mem_cons_self, rfl, rfl⟩
        | true =>
          rcases ih with ⟨br', hbr', hs, ht⟩ | h
          · exact .inl ⟨br', List.mem_cons_of_mem br hbr', hs, ht⟩
          · exact .inr h
      · rw [hx]
        exact .inr ⟨x.typeOf, hty, rfl, rfl⟩

section Walk

variable {g : Graph} {b : BlockId} {block next : Block} {before : List BlockId} {m : Registers}

/-- At the end of a block all is assigned that was bound on the way or is bound in the block. -/
theorem Registers.Assigned.atEnd
    (h : m.Assigned (g.boundIn before ++ block.paramVars ++ block.body.map Prod.fst)) {v : Variable}
    (hv : v ∈ g.boundIn before ∨ v ∈ block.boundVars) : (m v).isSome := by
  refine h v ?_
  rw [List.append_assoc]
  exact List.mem_append.2 hv

/-- With the arguments of a branch all is assigned that the next block relies on. -/
theorem Registers.Assigned.enter
    (h : m.Assigned (g.boundIn before ++ block.paramVars ++ block.body.map Prod.fst))
    (hb : g.block? b = some block) {xs : List Value} (hlen : next.paramVars.length ≤ xs.length) :
    (m.bind next.paramVars xs).Assigned (g.boundIn (b :: before) ++ next.paramVars) := by
  refine Registers.Assigned.bind (fun v hv => h.atEnd ?_) hlen
  rw [Graph.boundIn, List.flatMap_cons, hb] at hv
  exact (List.mem_append.1 hv).symm

end Walk

/-- **The strict run and the run agree** at every block that a walk leads to, when all that the walk
binds is assigned. The induction is on the fuel; the invariant is carried along the walk. -/
theorem agree_runFrom (hP : Explains env P) {g : Graph} (hg : g.WellFormed)
    (hslots : ∀ v ∈ g.boundVars, v.index < g.varCount) (fuel : Nat) {b : BlockId}
    {before : List BlockId} (hwalk : g.Walk b before) {block : Block} (hb : g.block? b = some block)
    {m : Registers} {frame : Frame} (hm : m.Within frame) (hsize : frame.size = g.varCount)
    (hassigned : m.Assigned (g.boundIn before ++ block.paramVars)) :
    Run.Agree Eq P (Strict.runFrom env g fuel b m) (g.runFrom env fuel b frame) := by
  induction fuel generalizing b before block m frame with
  | zero => exact .outOfFuel
  | succ fuel ih =>
    have hslot : ∀ {c : BlockId} {blk : Block}, g.block? c = some blk → ∀ v ∈ blk.boundVars,
        v.index < g.varCount := fun hblk v hv => hslots v (Graph.mem_boundVars_of_block? hblk hv)
    rw [Strict.runFrom, Graph.runFrom, Run.ofGraph_block hb, pure_bind, pure_bind]
    refine .bind (agree_statements hP block.body hm hassigned ?_ ?_) fun m' frame' hafter => ?_
    · intro v hv
      rw [hsize]
      exact hslot hb v (List.mem_append_right _ hv)
    · intro i w s hi v hv
      rcases hg.statement b block before hb hwalk i w s hi v hv with h | h
      · exact .inl (List.mem_append_left _ h)
      · exact (List.mem_append.1 h).imp_left (List.mem_append_right _)
    obtain ⟨hm', hassigned', hsize'⟩ := hafter
    have huses : ∀ br ∈ block.branches, m'.Assigned br.uses := fun br hbr v hv =>
      hassigned'.atEnd (hg.branch b block before hb hwalk br hbr v hv)
    obtain ⟨front, last, hends, hlast, -⟩ := hg.ends b block hb
    have htaken := taken?_eq hm' ⟨front, last, hends, hlast⟩ fun br hbr v hv =>
      huses br hbr v (List.mem_append_left _ hv)
    rcases htaken with ⟨br, hbr, hs, ht⟩ | ⟨ty, hty, hs, ht⟩
    · rw [hs, ht]
      show Run.Agree Eq P (Strict.operands env m' br.args >>= _)
          (Operand.evalAll env frame' br.args >>= _)
      refine .bind (agree_operands hP hm' br.args fun v hv =>
        huses br hbr v (List.mem_append_right _ hv)) fun xs ys hxs => ?_
      obtain ⟨rfl, hlen⟩ := hxs
      have htakes := hg.balanced b block hb br hbr
      rcases htarget : br.target with t | _
      · rw [htarget] at htakes
        obtain ⟨next, hnext, hparams⟩ := htakes
        dsimp only
        rw [Run.ofGraph_block hnext, pure_bind, pure_bind]
        have hfollows : g.Follows b t :=
          ⟨block, hb, List.mem_filterMap.2 ⟨br, hbr, by rw [Branch.block?, htarget]⟩⟩
        refine ih (hwalk.step hfollows) hnext ?_ ?_ ?_
        · refine hm'.bind _ _ fun v hv => ?_
          rw [hsize', hsize]
          exact hslot hnext v (List.mem_append_left _ hv)
        · rw [Frame.size_bind, hsize', hsize]
        · have hlength : next.paramVars.length = xs.length := by
            rw [hlen, hparams, Block.paramVars, List.length_map]
          exact hassigned'.enter hb (Nat.le_of_eq hlength)
      · rw [htarget] at htakes
        have hone : xs.length = 1 := hlen.trans htakes
        obtain ⟨x, rfl⟩ := List.length_eq_one_iff.1 hone
        exact .pure rfl
    · rw [hs, ht]
      exact fun s => .inr (.inl ⟨_, s, rfl, rfl, hP.condition ty s hty⟩)

end Agreement

/-! ## Safety -/

/-- The three ways in which a recorded run can end with a fault: a global is not defined in the
state at the end, a condition is not a truth value, or the last call that was made had this
fault. -/
inductive Explained {σ : Type} (env : Surroundings σ) : Fault → σ × List MadeCall → Prop
  | undefined {name : String} {s : σ} {calls : List MadeCall} :
    env.global s name = none → Explained env (.trap (.undefinedGlobal name)) (s, calls)
  | condition {ty : Ty} {s : σ} {calls : List MadeCall} :
    ty ≠ .bool → Explained env (.trap (.notBoolean ty)) (s, calls)
  | call {e : Fault} {f : Value} {args : List Value} {s : σ} {calls : List MadeCall} :
    Explained env e (s, calls ++ [⟨f, args, .error e⟩])

theorem explains_recorded {σ : Type} (env : Surroundings σ) :
    Explains env.recorded (Explained env) where
  undefined _ _ h := .undefined h
  condition _ _ h := .condition h
  call f args s e s' h := by
    obtain ⟨⟨r, s₁⟩, -, heq⟩ := Option.map_eq_some_iff.1 h
    cases heq
    exact .call

namespace Graph

variable {g : Graph} {σ : Type}

/-- A frame has a slot for every variable that was handed out. -/
theorem size_startFrame (g : Graph) (fill : Value) (args : List Value) :
    (g.startFrame fill args).size = g.varCount := by
  rw [startFrame, Frame.size_bind, Array.size_replicate]

/-- The run of a graph in order agrees with the strict run, whatever fills the frame. -/
theorem agree_run (h : g.Coherent) (hpos : 0 < g.blocks.size) (hg : g.WellFormed)
    {env : Surroundings σ} {P : Fault → σ → Prop} (hP : Explains env P) (fuel : Nat) (fill : Value)
    {args : List Value} (hargs : g.arguments.length ≤ args.length) :
    Run.Agree Eq P (Strict.run env g fuel args)
      (g.runFrom env fuel .entry (g.startFrame fill args)) := by
  have hentry : g.block? .entry = some g.entry := by
    simp [block?, Graph.entry, BlockId.entry, hpos]
  have hslots : ∀ v ∈ g.boundVars, v.index < g.varCount := fun v hv => h.lt_varCount hv
  have hwithin : Registers.Within (fun _ => none) (Array.replicate g.varCount fill) := by
    intro v x hx
    cases hx
  refine agree_runFrom hP hg hslots fuel .start hentry ?_ (size_startFrame g fill args) ?_
  · refine hwithin.bind _ _ fun v hv => ?_
    rw [Array.size_replicate]
    exact hslots v (mem_boundVars_of_block? hentry (List.mem_append_left _ hv))
  · have hnone : Registers.Assigned (fun _ => none) [] := by simp [Registers.Assigned]
    exact hnone.bind hargs

/-- A call with as many arguments as the graph takes has one for every parameter of the entry. -/
theorem length_arguments_le {args : List Value} (hargs : args.length = g.arity) :
    g.arguments.length ≤ (g.self?.toList ++ args).length := by
  rw [arguments, Block.paramVars, List.length_map, List.length_append, hargs, arity]
  rcases g.self? with _ | f
  · simp
  · simp only [Option.isSome_some, if_true, Option.toList_some, List.length_singleton]
    omega

/-- A call of a graph in order is the strict run. -/
theorem invoke_eq_strict (h : g.Coherent) (hpos : 0 < g.blocks.size) (hg : g.WellFormed)
    (env : Surroundings σ) (fuel : Nat) {args : List Value} (hargs : args.length = g.arity) :
    g.invoke env fuel args = Strict.run env g fuel (g.self?.toList ++ args) := by
  rw [invoke, if_pos hargs, run]
  exact (agree_run h hpos hg (explains_any env) fuel .nothing (length_arguments_le hargs)).eq.symm

/-- **A verified graph runs safely.** A call with the right number of arguments is the strict run,
in which nothing is read that was not assigned before; so is the run with any other filling of the
frame, in any surroundings and thus also in those that record the calls. No assignment misses its
slot, and the only faults are undefined globals, conditions that are no truth values, and the fault
of the last call made. -/
theorem verified_run_safe (h : g.Built) (hv : g.verify = .ok ()) (env : Surroundings σ) (fuel : Nat)
    (args : List Value) (hargs : args.length = g.arity) :
    g.invoke env fuel args = Strict.run env g fuel (g.self?.toList ++ args)
      ∧ (∀ fill, g.runFrom env fuel .entry (g.startFrame fill (g.self?.toList ++ args))
          = Strict.run env g fuel (g.self?.toList ++ args))
      ∧ (∀ fill, ∀ v ∈ g.boundVars, v.index < (g.startFrame fill (g.self?.toList ++ args)).size)
      ∧ ∀ s e s', g.invoke env.recorded fuel args s = some (.error e, s') → Explained env e s' := by
  have hlen := length_arguments_le hargs
  have hg := h.coherent.verify_eq_ok.1 hv
  have hinvoke : ∀ {τ : Type} (env : Surroundings τ), g.invoke env fuel args
      = g.runFrom env fuel .entry (g.startFrame .nothing (g.self?.toList ++ args)) := by
    intro τ env
    rw [invoke, if_pos hargs, run]
  have hsame :=
    fun fill => (agree_run h.coherent h.size_pos hg (explains_any env) fuel fill hlen).eq
  refine ⟨invoke_eq_strict h.coherent h.size_pos hg env fuel hargs,
    fun fill => (hsame fill).symm, ?_, ?_⟩
  · intro fill v hv
    rw [size_startFrame]
    exact h.coherent.lt_varCount hv
  · intro s e s' hfault
    have hagree := agree_run h.coherent h.size_pos hg (explains_recorded env) fuel .nothing hlen
    rw [hinvoke, ← hagree.eq] at hfault
    exact hagree.allowed hfault

/-- Surroundings without globals in which every call tells whether the count is above zero and
lowers it. -/
def countdown : Surroundings Nat where
  global _ _ := none
  call _ _ := ExceptT.mk fun n => some (.ok (.bool (n != 0)), n - 1)

/-- The loop that calls until the count is used up never reads what a filling would show. -/
theorem callLoop_run_safe : callLoop.Built ∧ callLoop.verify = .ok ()
    ∧ [Value.nothing].length = callLoop.arity
    ∧ callLoop.invoke countdown 4 [.nothing] = Strict.run countdown callLoop 4 [.nothing]
    ∧ callLoop.runFrom countdown 4 .entry (callLoop.startFrame (.bool true) [.nothing])
      = Strict.run countdown callLoop 4 [.nothing]
    ∧ callLoop.invoke countdown 4 [.nothing] 2 = some (.ok (.bool false), 0) := by
  have hsafe := verified_run_safe built_callLoop verify_callLoop countdown 4 [.nothing] rfl
  exact ⟨built_callLoop, verify_callLoop, rfl, hsafe.1, hsafe.2.1 _, rfl⟩

end Graph

end Interpose
