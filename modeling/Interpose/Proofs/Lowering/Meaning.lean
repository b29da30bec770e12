import Interpose.Proofs.Lowering.Places
import Interpose.Proofs.Lowering.Scope

/-!
# What operands hold

While the finished graph runs, an operand that lowering has bound to a name holds what the name
stands for in the tree. Registers change as the run goes on, but as long as it stays in what is
drafted from some chart on, it assigns only variables that are new from there, and older ones keep
their values.

The globals that matter are fixed by a table, which holds in all states that the run goes through.
-/

set_option autoImplicit false

namespace Interpose

open Source

variable {σ : Type}

/-! ## Registers -/

namespace Registers

variable {m m' m'' : Registers} {n k : Nat}

/-- The variables below a number have the same values in both. -/
def SameBelow (n : Nat) (m m' : Registers) : Prop := ∀ v : Variable, v.index < n → m' v = m v

theorem SameBelow.refl (n : Nat) (m : Registers) : SameBelow n m m := fun _ _ => rfl

theorem SameBelow.trans (h : SameBelow n m m') (h' : SameBelow k m' m'') (hle : n ≤ k) :
    SameBelow n m m'' :=
  fun v hv => (h' v (Nat.lt_of_lt_of_le hv hle)).trans (h v hv)

theorem sameBelow_assign (m : Registers) {v : Variable} (x : Value) (hv : n ≤ v.index) :
    SameBelow n m (m.assign v x) := by
  intro w hw
  have hne : w ≠ v := fun h => absurd hw (by rw [h]; omega)
  exact if_neg hne

theorem sameBelow_bind (m : Registers) (vs : List Variable) (xs : List Value)
    (hvs : ∀ v ∈ vs, n ≤ v.index) : SameBelow n m (m.bind vs xs) := by
  induction vs generalizing m xs with
  | nil => exact .refl n m
  | cons v vs ih =>
    cases xs with
    | nil => exact .refl n m
    | cons x xs =>
      have hfirst := sameBelow_assign m x (hvs v List.mem_cons_self)
      exact hfirst.trans (ih _ xs fun w hw => hvs w (List.mem_cons_of_mem v hw)) (Nat.le_refl n)

/-- New parameters come behind all older variables. -/
theorem sameBelow_newParams (m : Registers) (i k : Nat) (xs : List Value) :
    SameBelow i m (m.bind ((Graph.newParams i k).map Prod.fst) xs) := by
  refine sameBelow_bind m _ xs fun v hv => ?_
  obtain ⟨p, hp, rfl⟩ := List.mem_map.1 hv
  obtain ⟨l, -, rfl⟩ := List.mem_map.1 hp
  exact Nat.le_add_right i l

/-- New parameters hold the values that are passed, in order. -/
theorem bind_newParams (m : Registers) (i k : Nat) (xs : List Value) {j : Nat} {x : Value}
    (hj : j < k) (hx : xs[j]? = some x) :
    m.bind ((Graph.newParams i k).map Prod.fst) xs ⟨i + j⟩ = some x := by
  -- the first parameter is bound first, so the induction is on the parameters from the front
  have hcons : ∀ i k, (Graph.newParams i (k + 1)).map Prod.fst
      = ⟨i⟩ :: (Graph.newParams (i + 1) k).map Prod.fst := by
    intro i k
    simp [Graph.newParams, List.range_succ_eq_map, Function.comp_def, Nat.add_assoc, Nat.add_comm 1]
  induction k generalizing m i j xs with
  | zero => exact absurd hj (Nat.not_lt_zero j)
  | succ k ih =>
    rw [hcons]
    cases xs with
    | nil => cases hx
    | cons y ys =>
      cases j with
      | zero =>
        obtain rfl := Option.some.inj hx
        -- the parameters after the first one leave it as it is
        have hsame := sameBelow_newParams (m.assign ⟨i⟩ y) (i + 1) k ys ⟨i⟩ (Nat.lt_succ_self i)
        exact hsame.trans (if_pos rfl)
      | succ j =>
        have hindex : i + (j + 1) = i + 1 + j := by omega
        rw [hindex]
        exact ih (m.assign ⟨i⟩ y) (i + 1) ys (Nat.lt_of_succ_lt_succ hj) hx

end Registers

/-! ## Operands -/

/-- The operand holds the value in some registers, if the globals are those of a table. -/
def Operand.Holds (globals : String → Option Value) (m : Registers) : Operand → Value → Prop
  | .var v, x => m v = some x
  | .const c, x => c = x
  | .global n, x => globals n = some x

/-- The variable that is read has a number below some other. -/
def Operand.Below (n : Nat) (op : Operand) : Prop := ∀ v, op.var? = some v → v.index < n

/-- The globals of the table are those of the state. -/
def Fixes (env : Surroundings σ) (globals : String → Option Value) (s : σ) : Prop :=
  ∀ n x, globals n = some x → env.global s n = some x

section

variable {env : Surroundings σ} {globals : String → Option Value} {m m' : Registers} {op : Operand}
  {x : Value} {s : σ} {n : Nat}

theorem Operand.Holds.sameBelow (h : op.Holds globals m x) (hop : op.Below n)
    (hm : Registers.SameBelow n m m') : op.Holds globals m' x := by
  cases op with
  | var v => exact (hm v (hop v rfl)).trans h
  | const c => exact h
  | global n => exact h

theorem Operand.Holds.apply (h : op.Holds globals m x) (hs : Fixes env globals s) :
    Strict.operand env m op s = some (.ok x, s) := by
  cases op with
  | var v =>
    have hread : m.read v = .ok x := by
      have hv : m v = some x := h
      rw [Registers.read, hv]
      rfl
    rw [Strict.operand, hread]
    rfl
  | const c =>
    obtain rfl : c = x := h
    rfl
  | global n =>
    have hglobal : env.global s n = some x := hs n x h
    rw [Strict.operand, Run.bind_apply, Run.get_apply]
    dsimp only
    rw [hglobal]
    rfl

theorem apply_operands {ops : List Operand} {xs : List Value}
    (h : List.Forall₂ (Operand.Holds globals m) ops xs) (hs : Fixes env globals s) :
    Strict.operands env m ops s = some (.ok xs, s) := by
  induction h with
  | nil => rfl
  | @cons op x ops xs hop _ ih =>
    rw [Strict.operands, Run.bind_apply, hop.apply hs]
    dsimp only
    rw [Run.bind_apply, ih]
    rfl

end

/-! ## Charts -/

namespace Chart

variable {c c' : Chart} {b : BlockId} {op : Operand} {globals : String → Option Value}
  {m m' : Registers}

/-- What is read somewhere was handed out. -/
theorem Reads.below (h : c.Reads b op) (hsound : c.Sound) : op.Below c.graph.varCount := fun v hv =>
  hsound.coherent.lt_varCount (hsound.mem_boundVars (h v hv))

/-- What a name stands for in the tree, or `nothing`. -/
def look (store : Store) (n : String) : Value := (store n).getD .nothing

/-- The names of the tree and the operands of the chart stand for the same: each name that is still
read and bound to an operand, and only a name that is possibly bound has a value. -/
structure Matches (c : Chart) (globals : String → Option Value) (m : Registers) (live bound : Names)
    (store : Store) : Prop where
  holds : ∀ n ∈ live, ∀ op, c.env.get? n = some op → op.Holds globals m (look store n)
  assigned : ∀ n, (store n).isSome → n ∈ bound

variable {live bound : Names} {store : Store}

namespace Matches

theorem mono {live' : Names} (h : c.Matches globals m live bound store)
    (hlive : ∀ n ∈ live', n ∈ live) :
    c.Matches globals m live' bound store := ⟨fun n hn => h.holds n (hlive n hn), h.assigned⟩

/-- Names that stand for the same operands stand for the same values while these are kept. -/
theorem advance (h : c.Matches globals m live bound store) (hready : c.Ready)
    (henv : ∀ n, c'.env.get? n = c.env.get? n) (hm : Registers.SameBelow c.graph.varCount m m') :
    c'.Matches globals m' live bound store := by
  refine ⟨fun n hn op hop => ?_, h.assigned⟩
  rw [henv] at hop
  exact (h.holds n hn op hop).sameBelow ((hready.env n op hop).below hready.sound) hm

/-- A name that is not bound has no value. -/
theorem look_eq_nothing (h : c.Matches globals m live bound store) (ht : c.Tracks live bound)
    {n : String} (hn : n ∈ live) (hget : c.env.get? n = none) : look store n = .nothing := by
  have hnot : n ∉ bound := fun hmem => by
    have hsome := (ht.bound n hn).1 hmem
    rw [hget] at hsome
    cases hsome
  rcases hstore : store n with _ | x
  · rw [look, hstore]
    rfl
  · exact absurd (h.assigned n (by rw [hstore]; rfl)) hnot

/-- What a name passes to a block that takes it is what it stands for. -/
theorem passed (h : c.Matches globals m live bound store) (ht : c.Tracks live bound) {n : String}
    (hn : n ∈ live) : (c.env.passed n).Holds globals m (look store n) := by
  unfold Bindings.passed
  rcases hget : c.env.get? n with _ | op
  · exact (h.look_eq_nothing ht hn hget).symm
  · exact h.holds n hn op hget

/-- A name that is read holds what it stands for, which may be a global. -/
theorem resolve (h : c.Matches globals m live bound store) (ht : c.Tracks live bound) {n : String}
    (hn : n ∈ live) (hglobal : n ∉ bound → (globals n).isSome) :
    ∃ x, (c.env.resolve n).Holds globals m x
      ∧ ∀ {env : Surroundings σ} {s : σ}, Fixes env globals s →
        valueOf env bound store n s = some (.ok x, s) := by
  by_cases hmem : n ∈ bound
  · obtain ⟨op, hget⟩ := Option.isSome_iff_exists.1 ((ht.bound n hn).1 hmem)
    refine ⟨look store n, ?_, fun {env s} hs => ?_⟩
    · rw [Bindings.resolve, hget]
      exact h.holds n hn op hget
    · unfold valueOf look
      rcases store n with _ | x
      · simp only [if_pos hmem]
        rfl
      · rfl
  · obtain ⟨x, hx⟩ := Option.isSome_iff_exists.1 (hglobal hmem)
    have hget : c.env.get? n = none := by
      rcases hget : c.env.get? n with _ | op
      · rfl
      · exact absurd ((ht.bound n hn).2 (by rw [hget]; rfl)) hmem
    -- what is not possibly bound was never assigned, so that the tree looks outside too
    have hstore : store n = none := by
      rcases hstore : store n with _ | y
      · rfl
      · exact absurd (h.assigned n (by rw [hstore]; rfl)) hmem
    refine ⟨x, ?_, fun {env s} hs => ?_⟩
    · rw [Bindings.resolve, hget]
      exact hx
    · unfold valueOf
      rw [hstore]
      simp only [if_neg hmem]
      rw [Run.bind_apply, Run.get_apply]
      dsimp only
      rw [hs n x hx]
      rfl

end Matches

/-! ## Where names become parameters -/

/-- What the names hold after some of them were passed to new parameters, and others were bound to
operands that they have anyway. -/
theorem holds_threadEnv {pick : String → Option Operand} {keep : String → Bool} {names : Names}
    {env : Bindings} {i k : Nat} {look : String → Value} {more : List Value} {n : String}
    {op : Operand} (hk : (threaded pick keep names).length ≤ k)
    (hpick : ∀ op, pick n = some op → op.Holds globals m (look n) ∧ op.Below i)
    (hold : (n ∈ names → pick n = none ∧ keep n = false) → ∀ op, env.get? n = some op →
      op.Holds globals m (look n) ∧ op.Below i)
    (hget : (threadEnv pick keep i env names).get? n = some op) :
    op.Holds globals
      (m.bind ((Graph.newParams i k).map Prod.fst) ((threaded pick keep names).map look ++ more))
      (look n) := by
  have hsame := Registers.sameBelow_newParams m i k ((threaded pick keep names).map look ++ more)
  rcases get?_threadEnv pick keep names env i n with ⟨hsame', hnot⟩ | ⟨-, op', hop', hnew⟩
    | ⟨-, -, -, j, hj, hnew⟩
  · obtain ⟨hholds, hbelow⟩ := hold hnot op (hsame'.symm.trans hget)
    exact hholds.sameBelow hbelow hsame
  · obtain rfl := Option.some.inj (hnew.symm.trans hget)
    obtain ⟨hholds, hbelow⟩ := hpick op' hop'
    exact hholds.sameBelow hbelow hsame
  · obtain rfl := Option.some.inj (hnew.symm.trans hget)
    have hlt := (List.getElem?_eq_some_iff.1 hj).1
    refine Registers.bind_newParams m i k _ (Nat.lt_of_lt_of_le hlt hk) ?_
    rw [List.getElem?_append_left (by rw [List.length_map]; exact hlt), List.getElem?_map, hj]
    rfl

end Chart

end Interpose
