import Interpose.Proofs.Lowering.Meaning

/-!
# A tree and its graph side by side

The tree of a function and the finished graph are run together. Both do the same calls, so they go
through the same states. A *pairing* fixes what the comparison is about, and the two runs are *at* a
chart when the graph's run is where drafting went on in that chart and the tree's run is at the same
place of the text.

What comes after a construct is a continuation in the tree, and the place of the next chart in the
graph. The theorem for a construct says that it can be gone through if whatever comes after it
agrees.
-/

set_option autoImplicit false

namespace Interpose

open Source

/-- What is fixed while a tree and a graph are run side by side. -/
structure Pairing (σ : Type) where
  env : Surroundings σ
  /-- The values of the global names that matter. -/
  globals : String → Option Value
  /-- The states in which the tree's run was stopped. -/
  Stopped : σ → Prop
  lag : Lag
  /-- How many rounds every loop may go. -/
  rounds : Nat
  graph : Graph

/-- Less fuel is left, and variables from a number on have been assigned. -/
structure Later (n : Nat) (m : Registers) (fuel : Option Nat) (m' : Registers)
    (fuel' : Option Nat) : Prop where
  registers : Registers.SameBelow n m m'
  left : Left fuel fuel'

namespace Later

variable {n k : Nat} {m m' m'' : Registers} {fuel fuel' fuel'' : Option Nat}

theorem refl (n : Nat) (m : Registers) (fuel : Option Nat) : Later n m fuel m fuel :=
  ⟨.refl n m, .refl fuel⟩

theorem trans (h : Later n m fuel m' fuel') (h' : Later k m' fuel' m'' fuel'') (hle : n ≤ k) :
    Later n m fuel m'' fuel'' := ⟨h.registers.trans h'.registers hle, h.left.trans h'.left⟩

theorem of_left (n : Nat) (m : Registers) (h : Left fuel fuel') : Later n m fuel m fuel' :=
  ⟨.refl n m, h⟩

theorem leave (h : Later n m fuel m' fuel') (hleft : Left fuel' fuel'') :
    Later n m fuel m' fuel'' :=
  ⟨h.registers, h.left.trans hleft⟩

end Later

namespace Pairing

variable {σ : Type} {w : Pairing σ}

/-- Both runs are in the same state, and the globals are those of the table. -/
def Together (w : Pairing σ) (s t : σ) : Prop := s = t ∧ Fixes w.env w.globals s

/-- The runs end alike, unless the tree's run is stopped. -/
def Along (w : Pairing σ) (x y : Run σ Value) : Prop := Run.Along w.lag w.Together w.Stopped Eq x y

/-- A call leaves the globals as they are, unless it stops the tree's run. -/
def Keeps (w : Pairing σ) : Prop :=
  ∀ f args, Run.Along w.lag w.Together w.Stopped Eq (w.env.call f args) (w.env.call f args)

/-- The run of the graph from the place where drafting goes on. -/
noncomputable abbrev place (w : Pairing σ) (c : Chart) (fuel : Option Nat) (m : Registers) :
    Run σ Value :=
  c.goOn w.env w.graph fuel m

/-- The run of the graph from the beginning of a block. -/
noncomputable abbrev start (w : Pairing σ) (fuel : Option Nat) (b : BlockId) (m : Registers) :
    Run σ Value :=
  Strict.runFor w.env w.graph fuel b m

/-! ## Single steps -/

section Steps

variable {x x' y y' : Run σ Value}

theorem Along.left (h : w.Along x' y) (hx : ∀ s, Fixes w.env w.globals s → x s = x' s) :
    w.Along x y := by
  intro s t hst
  rw [hx s hst.2]
  exact h s t hst

theorem Along.right (h : w.Along x y') (hy : ∀ s, Fixes w.env w.globals s → y s = y' s) :
    w.Along x y := by
  intro s t hst
  obtain ⟨rfl, hs⟩ := hst
  rw [hy s hs]
  exact h s s ⟨rfl, hs⟩

/-- Both make the same test. -/
theorem Along.tested {f f' : Bool → Run σ Value} (r : Except Trap Bool)
    (htrue : w.Along (f true) (f' true)) (hfalse : w.Along (f false) (f' false)) :
    w.Along (Run.ofTrap r >>= f) (Run.ofTrap r >>= f') :=
  (Run.Along.same _).next fun holds => match holds with
    | true => htrue
    | false => hfalse

/-- The graph's run enters a block. -/
theorem Along.enter {fuel : Option Nat} {k : Nat} (hfuel : w.lag.Allows k fuel) {b : BlockId}
    {m : Registers} (h : ∀ fuel', Left fuel fuel' → (∀ k', k = k' + 1 → w.lag.Allows k' fuel') →
      w.Along x (Strict.resume w.env w.graph fuel' b 0 m)) : w.Along x (w.start fuel b m) := by
  rcases Strict.runFor_cases w.env w.graph fuel with ⟨rfl, hout⟩ | ⟨fuel', hleft, hless, hresume⟩
  · intro s t _
    rw [start, hout]
    refine .inl ?_
    rcases hlag : w.lag with _ | _
    · rw [hlag] at hfuel
      cases hfuel
    · rfl
  · rw [start, hresume]
    exact h fuel' hleft fun k' hk => hless w.lag k' (hk ▸ hfuel)

end Steps

/-! ## Being at a chart -/

/-- The runs are at a chart: the names of the tree, of which those of `live` are read from here on,
stand for what the operands of the chart hold. -/
structure At (w : Pairing σ) (c : Chart) (m : Registers) (fuel : Option Nat) (live bound : Names)
    (store : Store) : Prop where
  ready : c.Ready
  tracks : c.Tracks live bound
  holds : c.Matches w.globals m live bound store
  fuel : w.lag.Allows w.rounds fuel

namespace At

variable {c c' : Chart} {m m' : Registers} {fuel fuel' : Option Nat} {live live' bound : Names}
  {store : Store}

theorem mono (h : w.At c m fuel live bound store) (hlive : ∀ n ∈ live', n ∈ live) :
    w.At c m fuel live' bound store := ⟨h.ready, h.tracks.mono hlive, h.holds.mono hlive, h.fuel⟩

/-- The names stand for the same later, where they are bound to the same operands. -/
theorem advance (h : w.At c m fuel live bound store) (hready : c'.Ready)
    (henv : ∀ n, c'.env.get? n = c.env.get? n) (hlater : Later c.graph.varCount m fuel m' fuel') :
    w.At c' m' fuel' live bound store :=
  ⟨hready, h.tracks.of_env henv, h.holds.advance h.ready henv hlater.registers,
    hlater.left _ _ h.fuel⟩

end At

/-! ## Operands -/

section Operands

variable {m : Registers} {op : Operand} {x : Value} {α : Type}

theorem bind_operation {f : Value → Run σ α} (h : op.Holds w.globals m x) {s : σ}
    (hs : Fixes w.env w.globals s) : (Strict.operation w.env m (.operand op) >>= f) s = f x s := by
  rw [Run.bind_apply, Strict.operation, h.apply hs]

theorem bind_operands {ops : List Operand} {xs : List Value} {f : List Value → Run σ α}
    (h : List.Forall₂ (Operand.Holds w.globals m) ops xs) {s : σ} (hs : Fixes w.env w.globals s) :
    (Strict.operands w.env m ops >>= f) s = f xs s := by
  rw [Run.bind_apply, apply_operands h hs]

end Operands

/-! ## Entering blocks -/

/-- A branch whose arguments hold values enters its block with these values in the parameters. -/
theorem takeBranch_enter {c : Chart} {m : Registers} {t : BlockId} {block : Block} {br : Branch}
    {xs : List Value} (hg : c.graph.Grows w.graph) (hb : c.graph.block? t = some block)
    (ht : br.target = .block t) (hvalues : List.Forall₂ (Operand.Holds w.globals m) br.args xs)
    {s : σ} (hs : Fixes w.env w.globals s) :
    Strict.takeBranch w.env w.graph m br s
      = some (.ok (.enter t (m.bind block.paramVars xs)), s) := by
  obtain ⟨next, hnext, hgrows⟩ := hg t block hb
  have hvars : next.paramVars = block.paramVars := by
    rw [Block.paramVars, hgrows.params, Block.paramVars]
  rw [Strict.takeBranch_block ht hnext, bind_operands hvalues hs, hvars]
  rfl

/-- The operands that names pass hold what the names stand for. -/
theorem holds_passed {names : Names} {env : Bindings} {m : Registers} {look : String → Value}
    (h : ∀ n ∈ names, (env.passed n).Holds w.globals m (look n)) :
    List.Forall₂ (Operand.Holds w.globals m) (names.map env.passed) (names.map look) := by
  rw [List.forall₂_map_left_iff, List.forall₂_map_right_iff, List.forall₂_same]
  exact h

section Joins

variable {c c' : Chart} {edges : List Edge} {live : Names} {e : Edge} {m : Registers}
  {fuel : Option Nat}

/-- **A join is entered** from one of its edges: the registers hold, for the names that are read
later, what they held on the edge, and for the construct what it is worth on the edge. -/
theorem enters_join (hj : c.Joinable c' edges) (he : e ∈ edges)
    (hplain : ∀ e ∈ edges, e.env.IsPlain) (hg : (c'.joined edges live).graph.Grows w.graph)
    {look : String → Value} (hpassed : ∀ n ∈ live, (e.env.passed n).Holds w.globals m (look n))
    (hholds : ∀ n ∈ live, ∀ op, e.env.get? n = some op → op.Holds w.globals m (look n)) {x : Value}
    (hx : (e.value.getD (.const .nothing)).Holds w.globals m x) :
    ∃ m', Registers.SameBelow c'.graph.varCount m m'
      ∧ (∀ n ∈ live, ∀ op, (c'.joined edges live).env.get? n = some op →
        op.Holds w.globals m' (look n))
      ∧ (∀ op, Edge.outcome edges live c'.graph.varCount = some op → op.Holds w.globals m' x)
      ∧ ∀ (br : Branch) s, br.target = .block c'.next → br.args = Edge.arguments edges live e →
        Fixes w.env w.globals s →
        Strict.takeBranch w.env w.graph m br s = some (.ok (.enter c'.next m'), s) := by
  have hmeets := Chart.meets_join live (List.ne_nil_of_mem he) hj.nodup hj.departs
  have hdeparts := hj.departs e he
  let more : List Value := if Edge.valued edges then [x] else []
  let values : List Value := (Edge.parameters edges live).map look ++ more
  -- the arguments hold the values of the names and then that of the construct
  have hvalues : List.Forall₂ (Operand.Holds w.globals m) (Edge.arguments edges live e) values := by
    have hparameters : ∀ n ∈ Edge.parameters edges live,
        (e.env.passed n).Holds w.globals m (look n) := fun n hn =>
      hpassed n (List.contains_iff_mem.1 (Bool.and_eq_true_iff.1 (List.mem_filter.1 hn).2).2)
    have hnames := holds_passed hparameters
    unfold Edge.arguments values more
    dsimp only
    split
    · exact List.rel_append hnames (.cons hx .nil)
    · rw [List.append_nil]
      exact hnames
  refine ⟨m.bind ((Graph.newParams c'.graph.varCount (Edge.arity edges live)).map Prod.fst) values,
    Registers.sameBelow_newParams m _ _ _, fun n hn op hget => ?_, fun op hop => ?_,
    fun br s ht hargs hs => ?_⟩
  · refine Chart.holds_threadEnv (Nat.le_add_right _ _) (fun op hcommon => ?_)
      (fun _ op hold => ?_) hget
    · have hsame := Edge.get?_of_common? hplain hcommon he
      exact ⟨hholds n hn op hsame, (hdeparts.env n op hsame).below hj.sound⟩
    · cases hold
  · -- the value of the construct is passed last
    unfold Edge.outcome at hop
    split at hop
    · next hvalued =>
      obtain rfl := Option.some.inj hop
      refine Registers.bind_newParams m _ _ _ ?_ ?_
      · rw [Edge.arity, if_pos hvalued]
        exact Nat.lt_succ_self _
      · have hmore : more = [x] := if_pos hvalued
        rw [List.getElem?_append_right (Nat.le_of_eq (List.length_map _)), List.length_map,
          Nat.sub_self, hmore]
        rfl
    · cases hop
  · rw [← hargs] at hvalues
    exact takeBranch_enter hg (hmeets.block?_target hj.sound) ht hvalues hs

/-- At the end of the source of an edge its branches are tried. -/
theorem resume_source (hj : c.Joinable c' edges) (he : e ∈ edges)
    (hg : (c'.joined edges live).graph.Grows w.graph) {block : Block}
    (hb : c'.graph.block? e.source = some block) :
    Strict.resume w.env w.graph fuel e.source block.body.length m
      = Strict.takeFirst w.env w.graph e.source m (e.branches c'.next (Edge.arguments edges live e))
        >>= Strict.Exit.follow (w.start fuel) := by
  have hmeets := Chart.meets_join live (List.ne_nil_of_mem he) hj.nodup hj.departs
  have hsource : (c'.joined edges live).graph.block? e.source = _ :=
    hmeets.block?_source hj.sound he hb
  have hbranches : e.branches c'.next (Edge.arguments edges live e) ≠ [] := by
    obtain ⟨front, last, heq, -⟩ := e.closing c'.next (Edge.arguments edges live e)
    rw [heq]
    simp
  exact Chart.resume_closed hg hsource hbranches

end Joins

end Pairing

end Interpose
