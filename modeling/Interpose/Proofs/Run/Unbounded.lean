import Interpose.Proofs.Run.Along
import Interpose.Proofs.Run.Safety

/-!
# Running a graph from the middle of a block

To follow a run while it goes through a graph, one has to speak of what is left of it: the
statements of a block from some place on, its branches, and the blocks after it. The run may have a
bound on the blocks that it still enters, or none. A run without a bound ends with what a bounded
one ends with when the bound is large.

Everything is said of the strict run, whose registers hold only what was assigned.
-/

set_option autoImplicit false

namespace Interpose

variable {σ : Type}

namespace Run

variable {α : Type}

/-- More fuel does not change how a run ends. -/
def Steady (x : Nat → Run σ α) : Prop := ∀ n m s r, n ≤ m → x n s = some r → x m s = some r

open Classical in
/-- How a run ends when it has fuel enough. -/
noncomputable def unbounded (x : Nat → Run σ α) : Run σ α := ExceptT.mk fun s =>
  if h : ∃ n r, x n s = some r then some h.choose_spec.choose else none

open Classical in
theorem Steady.unbounded_eq_some {x : Nat → Run σ α} (hx : Steady x) {s : σ}
    {r : Except Fault α × σ} : unbounded x s = some r ↔ ∃ n, x n s = some r := by
  have hunbounded : unbounded x s
      = if h : ∃ n r, x n s = some r then some h.choose_spec.choose else none := rfl
  rw [hunbounded]
  constructor
  · intro h
    split at h
    · next hex =>
      obtain rfl := Option.some.inj h
      exact ⟨_, hex.choose_spec.choose_spec⟩
    · cases h
  · rintro ⟨n, hn⟩
    have hex : ∃ n r, x n s = some r := ⟨n, r, hn⟩
    -- two fuels that both suffice lead to the same end
    have hchosen := hx _ (max hex.choose n) s _ (Nat.le_max_left _ _) hex.choose_spec.choose_spec
    have hgiven := hx n (max hex.choose n) s r (Nat.le_max_right _ _) hn
    rw [dif_pos hex]
    exact hchosen.symm.trans hgiven

end Run

namespace Strict

/-- How a block is left: with a value, or for another block with its parameters bound. -/
inductive Exit where
  | leave (x : Value)
  | enter (b : BlockId) (m : Registers)

/-- What is done at an exit, if `go` is what is done in a block. -/
def Exit.follow (go : BlockId → Registers → Run σ Value) : Exit → Run σ Value
  | .leave x => pure x
  | .enter b m => go b m

variable (env : Surroundings σ) (g : Graph)

/-- To take a branch: its arguments are read and passed. -/
def takeBranch (m : Registers) (br : Branch) : Run σ Exit := do
  let passed ← operands env m br.args
  match br.target with
  | .leave => .leave <$> Run.ofExcept (passed.head?.elim (.error .emptyReturn) .ok)
  | .block t =>
    let next ← Run.ofGraph (g.block t)
    return .enter t (m.bind next.paramVars passed)

/-- The first branch that is taken leads out of the block. -/
def takeFirst (b : BlockId) (m : Registers) (branches : List Branch) : Run σ Exit := do
  match ← Run.ofExcept (taken? m branches) with
  | none => throw (.noBranch b)
  | some br => takeBranch env g m br

/-- The rest of a block, from a position in its body on. -/
def toExit (b : BlockId) (position : Nat) (m : Registers) : Run σ Exit := do
  let block ← Run.ofGraph (g.block b)
  let m ← statements env m (block.body.drop position)
  takeFirst env g b m block.branches

theorem runFrom_succ (n : Nat) (b : BlockId) (m : Registers) :
    runFrom env g (n + 1) b m = toExit env g b 0 m >>= Exit.follow (runFrom env g n) := by
  unfold runFrom toExit takeFirst takeBranch
  simp only [bind_assoc, List.drop_zero]
  congr 1
  funext block
  congr 1
  funext m'
  congr 1
  funext taken
  rcases taken with _ | br
  · rfl
  · dsimp only
    rw [bind_assoc]
    congr 1
    funext passed
    rcases br.target with t | _
    · simp only [bind_assoc, pure_bind]
      rfl
    · simp only [bind_map_left]
      exact (bind_pure _).symm

/-! ## Fuel -/

theorem steady_runFrom (b : BlockId) (m : Registers) : Run.Steady fun n => runFrom env g n b m := by
  intro n k s r hle
  induction n generalizing k b m s with
  | zero => exact nofun
  | succ n ih =>
    obtain ⟨k, rfl⟩ : ∃ k', k = k' + 1 := ⟨k - 1, by omega⟩
    dsimp only
    rw [runFrom_succ, runFrom_succ, Run.bind_apply, Run.bind_apply]
    rcases toExit env g b 0 m s with _ | ⟨e | x, s'⟩
    · exact id
    · exact id
    · cases x with
      | leave x => exact id
      | enter b' m' => exact ih b' m' k s' (Nat.le_of_succ_le_succ hle)

/-- The run from the beginning of a block, with a bound on the blocks that it enters or without
one. -/
noncomputable def runFor : Option Nat → BlockId → Registers → Run σ Value
  | some n, b, m => runFrom env g n b m
  | none, b, m => Run.unbounded fun n => runFrom env g n b m

theorem runFor_none_eq_some {b : BlockId} {m : Registers} {s : σ} {r : Except Fault Value × σ} :
    runFor env g none b m s = some r ↔ ∃ n, runFrom env g n b m s = some r :=
  (steady_runFrom env g b m).unbounded_eq_some

theorem runFor_none (b : BlockId) (m : Registers) :
    runFor env g none b m = toExit env g b 0 m >>= Exit.follow (runFor env g none) := by
  funext s
  refine Option.ext fun r => ?_
  rw [runFor_none_eq_some, Run.bind_apply]
  constructor
  · -- a run that comes to an end does so with some fuel, of which the first block takes one
    rintro ⟨n, hn⟩
    cases n with
    | zero => cases hn
    | succ n =>
      rw [runFrom_succ, Run.bind_apply] at hn
      rcases hexit : toExit env g b 0 m s with _ | ⟨e | x, s'⟩
      · rw [hexit] at hn
        cases hn
      · rw [hexit] at hn
        exact hn
      · rw [hexit] at hn
        cases x with
        | leave x => exact hn
        | enter b' m' => exact (runFor_none_eq_some env g).2 ⟨n, hn⟩
  · intro h
    rcases hexit : toExit env g b 0 m s with _ | ⟨e | x, s'⟩
    · rw [hexit] at h
      cases h
    · rw [hexit] at h
      refine ⟨1, ?_⟩
      rw [runFrom_succ, Run.bind_apply, hexit]
      exact h
    · rw [hexit] at h
      cases x with
      | leave x =>
        refine ⟨1, ?_⟩
        rw [runFrom_succ, Run.bind_apply, hexit]
        exact h
      | enter b' m' =>
        obtain ⟨n, hn⟩ := (runFor_none_eq_some env g).1 h
        refine ⟨n + 1, ?_⟩
        rw [runFrom_succ, Run.bind_apply, hexit]
        exact hn

end Strict

/-- The fuel of a graph that is compared with rounds of loops. If the loops lag, the graph has no
bound, and otherwise it enters no more blocks than loops may go rounds. -/
def Lag.Allows : Lag → Nat → Option Nat → Prop
  | .first, _, fuel => fuel = none
  | .second, k, fuel => ∃ n ≤ k, fuel = some n

/-- What is left of some fuel serves where all of it served. -/
def Left (fuel fuel' : Option Nat) : Prop := ∀ (lag : Lag) k, lag.Allows k fuel → lag.Allows k fuel'

theorem Left.refl (fuel : Option Nat) : Left fuel fuel := fun _ _ h => h

theorem Left.trans {fuel fuel' fuel'' : Option Nat} (h : Left fuel fuel') (h' : Left fuel' fuel'') :
    Left fuel fuel'' := fun lag k hk => h' lag k (h lag k hk)

namespace Strict

variable (env : Surroundings σ) (g : Graph)

/-- The run from a position in the body of a block. -/
noncomputable def resume (fuel : Option Nat) (b : BlockId) (position : Nat) (m : Registers) :
    Run σ Value :=
  toExit env g b position m >>= Exit.follow (runFor env g fuel)

/-- **To enter a block costs fuel**, so that less is left, unless there is none. -/
theorem runFor_cases (fuel : Option Nat) :
    (fuel = some 0 ∧ ∀ b m, runFor env g fuel b m = .outOfFuel)
    ∨ ∃ fuel', Left fuel fuel' ∧ (∀ (lag : Lag) k, lag.Allows (k + 1) fuel → lag.Allows k fuel')
      ∧ ∀ b m, runFor env g fuel b m = resume env g fuel' b 0 m := by
  rcases fuel with _ | _ | n
  · refine .inr ⟨none, .refl none, fun lag k h => ?_, fun b m => runFor_none env g b m⟩
    cases lag with
    | first => exact h
    | second =>
      obtain ⟨_, -, hn⟩ := h
      cases hn
  · exact .inl ⟨rfl, fun _ _ => rfl⟩
  · refine .inr ⟨some n, fun lag k h => ?_, fun lag k h => ?_, fun b m => runFrom_succ env g n b m⟩
    · -- where the rounds bound the fuel, they still do when one is taken from it
      cases lag with
      | first => cases h
      | second =>
        obtain ⟨n', hle, hn⟩ := h
        cases hn
        exact ⟨n, Nat.le_of_succ_le hle, rfl⟩
    · cases lag with
      | first => cases h
      | second =>
        obtain ⟨n', hle, hn⟩ := h
        cases hn
        exact ⟨n, Nat.le_of_succ_le_succ hle, rfl⟩

/-! ## Going on -/

variable {env g} {fuel : Option Nat} {b : BlockId} {block : Block} {m : Registers}

theorem toExit_eq (hb : g.block? b = some block) (position : Nat) : toExit env g b position m
    = statements env m (block.body.drop position)
      >>= fun m => takeFirst env g b m block.branches := by
  rw [toExit, Run.ofGraph_block hb, pure_bind]

/-- The next statement is run, and the run goes on behind it. -/
theorem resume_statement (hb : g.block? b = some block) {i : Nat} {v : Variable} {s : Statement}
    (hi : block.body[i]? = some (v, s)) : resume env g fuel b i m
      = operation env m s.operation >>= fun x => resume env g fuel b (i + 1) (m.assign v x) := by
  obtain ⟨hlt, hget⟩ := List.getElem?_eq_some_iff.1 hi
  have hdrop : block.body.drop i = (v, s) :: block.body.drop (i + 1) := by
    rw [List.drop_eq_getElem_cons hlt, hget]
  unfold resume
  simp only [toExit_eq hb]
  simp only [hdrop, statements, bind_assoc]

/-- Behind the last statement the first branch is taken whose turn it is. -/
theorem resume_end (hb : g.block? b = some block) : resume env g fuel b block.body.length m
    = takeFirst env g b m block.branches >>= Exit.follow (runFor env g fuel) := by
  rw [resume, toExit_eq hb, List.drop_length, statements, pure_bind]

/-- A branch that is always taken. -/
theorem takeFirst_always {br : Branch} (hbr : br.condition = none) (rest : List Branch) :
    takeFirst env g b m (br :: rest) = takeBranch env g m br := by
  have htaken : taken? m (br :: rest) = .ok (some br) := by
    rw [taken?, hbr]
  rw [takeFirst, htaken]
  rfl

/-- A branch that is taken when a variable is false. -/
theorem takeFirst_unless {br : Branch} {v : Variable} {x : Value} (hbr : br.condition = some v)
    (hx : m v = some x) (rest : List Branch) : takeFirst env g b m (br :: rest)
      = Run.ofTrap x.asBool >>= fun holds =>
        if holds then takeFirst env g b m rest else takeBranch env g m br := by
  have hread : m.read v = .ok x := by
    rw [Registers.read, hx]
    rfl
  have htaken : taken? m (br :: rest) = (x.asBool.mapError .trap >>= fun holds =>
      if holds then taken? m rest else return some br) := by
    rw [taken?, hbr]
    dsimp only
    rw [hread]
    rfl
  rw [takeFirst, htaken, Run.ofTrap]
  rcases x.asBool with e | holds
  · rfl
  · cases holds <;> rfl

/-- A branch to a block reads its arguments, and enters the block with them. -/
theorem takeBranch_block {br : Branch} {t : BlockId} {next : Block} (ht : br.target = .block t)
    (hnext : g.block? t = some next) : takeBranch env g m br
      = operands env m br.args >>= fun passed =>
        pure (.enter t (m.bind next.paramVars passed)) := by
  rw [takeBranch, ht]
  dsimp only
  rw [Run.ofGraph_block hnext]
  rfl

end Strict

end Interpose
