import Interpose.Proofs.Compiling
import Interpose.Proofs.Lowering.Preserved

/-!
# Lowering preserves meaning

The graph of a function and its tree, called with the same arguments in the same surroundings, make
the same calls and end alike, or neither ends. This holds as long as the names that the function
takes from outside stand for something and no call has one of them stand for something else: the
graph looks up a global when its value is used, and the tree when it is read.
-/

set_option autoImplicit false

namespace Interpose

open Source

variable {σ τ : Type}

/-- The runs end alike from a state, each with fuel enough. -/
def Run.EndAlike {α : Type} (x y : Nat → Run σ α) (s : σ) : Prop :=
  ∀ r t, (∃ n, x n s = some (r, t)) ↔ ∃ n, y n s = some (r, t)

/-! ## Names that no call rebinds -/

/-- In a run of the function no call has one of the names that it takes from outside stand for
something else. -/
def Source.Function.Undisturbed (d : Source.Function) (env : Surroundings σ) (args : List Value)
    (s : σ) : Prop :=
  ∀ fuel r t, d.run (env.watching d.globals) fuel args (s, false) = some (r, t) → t.2 = false

section Undisturbed

variable {d : Source.Function} {env : Surroundings σ} {args : List Value} {s : σ}

/-- Records of calls have no influence on what is watched. -/
theorem Source.Function.Undisturbed.of_along {env' : Surroundings (σ × List MadeCall)}
    {Stopped : (σ × List MadeCall) × Bool → Prop} (h : d.Undisturbed env args s)
    (halong : (env'.watching d.globals).Along .first (fun s t => s.1.1 = t.1 ∧ s.2 = t.2) Stopped
      (env.watching d.globals)) (hstopped : ∀ s, Stopped s → s.2 = false) : d.Undisturbed env' args
        (s, []) := by
  intro fuel r t hrun
  rcases (along_function halong d fuel args ((s, []), false) (s, false) ⟨rfl, rfl⟩).of_first
    hrun with
    ⟨e, t', heq, hstop⟩ | ⟨r', t', hrun', ⟨-, hsame⟩, -⟩
  · obtain ⟨-, rfl⟩ := Prod.mk.inj (Option.some.inj (hrun.symm.trans heq))
    exact hstopped t hstop
  · rw [hsame]
    exact h fuel r' t' hrun'

theorem Source.Function.Undisturbed.recorded (h : d.Undisturbed env args s) :
    d.Undisturbed env.recorded args (s, []) :=
  h.of_along (along_recorded .first env d.globals) nofun

theorem Source.Function.Undisturbed.limited (h : d.Undisturbed env args s) (limit : Nat) :
    d.Undisturbed (env.limited limit) args (s, []) :=
  h.of_along (along_limited .first env limit d.globals) fun _ hstop => hstop

/-- Where no call ever has a name stand for something else, none does in a run. -/
theorem Source.Function.undisturbed_of_call (h : ∀ f xs t r t', env.call f xs t = some (r, t') →
    ∀ n ∈ d.globals, env.global t' n = env.global t n) : d.Undisturbed env args s := by
  have halong : (env.watching d.globals).Along .first (fun s t => s = t ∧ s.2 = false)
      (fun _ => False) (env.watching d.globals) := by
    refine ⟨fun s t hst n => by rw [hst.1], fun f xs s t hst => ?_⟩
    obtain ⟨rfl, hnoted⟩ := hst
    obtain ⟨t, noted⟩ := s
    obtain rfl : noted = false := hnoted
    have hcall : (env.watching d.globals).call f xs (t, false) = (env.call f xs t).map fun p =>
        if ∀ n ∈ d.globals, env.global p.2 n = env.global t n then (p.1, (p.2, false))
        else (.error .emptyReturn, (p.2, true)) := rfl
    rw [hcall]
    rcases hr : env.call f xs t with _ | ⟨r, t'⟩
    · exact .inl rfl
    · rw [Option.map_some]
      dsimp only
      rw [if_pos (h f xs t r t' hr)]
      exact .inr (.inr ⟨r, r, _, _, rfl, rfl, ⟨rfl, rfl⟩, .refl r⟩)
  intro fuel r t hrun
  rcases (along_function halong d fuel args (s, false) (s, false) ⟨rfl, rfl⟩).of_first hrun with
    ⟨_, _, _, hfalse⟩ | ⟨_, _, _, ⟨-, hnoted⟩, -⟩
  · exact hfalse.elim
  · exact hnoted

/-- Where no name is rebound the run of the tree is the same when it is watched. -/
theorem Source.Function.Undisturbed.run_watching (h : d.Undisturbed env args s) {n : Nat}
    {r : Except Fault Value} {t : σ} :
    d.run (env.watching d.globals) n args (s, false) = some (r, (t, false))
      ↔ d.run env n args s = some (r, t) := by
  have halong :=
    fun lag => along_function (along_watching lag env d.globals) d n args (s, false) s rfl
  constructor
  · intro hrun
    rcases (halong .first).of_first hrun with ⟨e, t', heq, hstopped⟩ | ⟨r', t', hrun', hsame, hfits⟩
    · obtain ⟨-, rfl⟩ := Prod.mk.inj (Option.some.inj (hrun.symm.trans heq))
      cases hstopped
    · obtain ⟨rfl, -⟩ := Prod.mk.inj hsame
      rw [hrun', hfits.eq]
  · intro hrun
    rcases (halong .second).of_second hrun with ⟨e, t', heq, hstopped⟩ | ⟨r', t', hrun', rfl, hfits⟩
    · cases (h n _ t' heq).symm.trans hstopped
    · rw [hrun', hfits.eq]

/-- The call of a graph is the same when it is watched, up to a stop. -/
theorem invoke_watching (env : Surroundings σ) (names : Names) (g : Graph) (n : Nat)
    (args : List Value) (s : σ) {r : Except Fault Value} {t : σ} :
    (g.invoke (env.watching names) n args (s, false) = some (r, (t, false)) →
      g.invoke env n args s = some (r, t))
      ∧ (g.invoke env n args s = some (r, t) →
        ∃ r' t', g.invoke (env.watching names) n args (s, false) = some (r', t')
          ∧ (t'.2 = true ∨ r' = r ∧ t' = (t, false))) := by
  have hbehind : ∀ lag : Lag, lag.Behind n n := fun lag => by cases lag <;> exact Nat.le_refl n
  have halong : ∀ lag, Run.Meet lag (fun s t => s = (t, false)) (fun s => s.2 = true) Eq
      (g.invoke (env.watching names) n args (s, false)) (g.invoke env n args s) := fun lag =>
    have hwatching := along_watching lag env names
    along_invoke hwatching.global (fun frame e e' he => he ▸ along_operation hwatching frame e)
      (.refl g) (hbehind lag) args (s, false) s rfl
  constructor
  · intro hrun
    rcases (halong .first).of_first hrun with ⟨e, t', heq, hstopped⟩ | ⟨r', t', hrun', hsame, hfits⟩
    · obtain ⟨-, rfl⟩ := Prod.mk.inj (Option.some.inj (hrun.symm.trans heq))
      cases hstopped
    · obtain ⟨rfl, -⟩ := Prod.mk.inj hsame
      rw [hrun', hfits.eq]
  · intro hrun
    rcases (halong .second).of_second hrun with ⟨e, t', heq, hstopped⟩ | ⟨r', t', hrun', rfl, hfits⟩
    · exact ⟨_, t', heq, .inl hstopped⟩
    · exact ⟨r', _, hrun', .inr ⟨hfits.eq, rfl⟩⟩

end Undisturbed

/-! ## The two runs in watching surroundings -/

/-- A tree and a graph are compared in surroundings that watch the names, from a state on. -/
def Pairing.watched (env : Surroundings σ) (names : Names) (s : σ) (lag : Lag) (rounds : Nat)
    (g : Graph) : Pairing (σ × Bool) where
  env := env.watching names
  globals n := if n ∈ names then env.global s n else none
  Stopped t := t.2 = true
  lag
  rounds
  graph := g

namespace Pairing

variable {env : Surroundings σ} {names : Names} {s : σ} {lag : Lag} {rounds : Nat} {g : Graph}

theorem keeps_watched : (watched env names s lag rounds g).Keeps := by
  rintro f args t _ ⟨rfl, hfixes⟩
  rcases hcall : (watched env names s lag rounds g).env.call f args t with _ | ⟨r, t'⟩
  · exact .inl (Lag.explains_none _)
  · rcases watching_call_cases env names hcall with ⟨e, rfl, hstopped⟩ | hkept
    · exact .inr (.inl ⟨e, t', rfl, hstopped⟩)
    · refine .inr (.inr ⟨r, r, t', t', rfl, rfl, ⟨rfl, fun n x hn => ?_⟩, .refl r⟩)
      -- only names that are watched are in the table
      have hmem : n ∈ names := by
        by_contra hnot
        cases (if_neg hnot).symm.trans hn
      exact (hkept n hmem).trans (hfixes n x hn)

/-- The state from which the names are watched. -/
theorem fixes_watched :
    Fixes (watched env names s lag rounds g).env (watched env names s lag rounds g).globals
      (s, false) := by
  intro n x hn
  have hglobals : (watched env names s lag rounds g).globals n = if n ∈ names
      then env.global s n else none := rfl
  rw [hglobals] at hn
  split at hn
  · exact hn
  · cases hn

theorem grants_watched (hglobals : ∀ n ∈ names, (env.global s n).isSome) :
    (watched env names s lag rounds g).Grants names := by
  intro n hn
  have hglobal : (watched env names s lag rounds g).globals n = env.global s n := if_pos hn
  rw [hglobal]
  exact hglobals n hn

end Pairing

namespace Chart.Lowers

variable {c : Chart} {d : Source.Function} {file : String} {env : Surroundings σ} {s : σ}
  {args : List Value}

/-- **The run of the tree and that of the graph go along** in watching surroundings. -/
theorem along (h : Lowers d file c) (hplain : Stmt.ArePlain d.body)
    (hargs : args.length = d.params.length) (hglobals : ∀ n ∈ d.globals, (env.global s n).isSome)
    (self : Value) {g : Graph} (hg : c.graph.Grows g) {lag : Lag} {rounds : Nat} {fuel : Option Nat}
    (hfuel : lag.Allows rounds fuel) :
    (Pairing.watched env d.globals s lag rounds g).Along
      (d.run (env.watching d.globals) rounds args)
      (Strict.runFor (env.watching d.globals) g fuel .entry (Registers.bind (fun _ => none)
        ((Graph.newParams 0 (d.params.length + 1)).map Prod.fst) (self :: args))) := by
  have hentry := (block?_start d.params file .entry).trans (if_pos rfl)
  refine Pairing.Along.place (w := .watched env d.globals s lag rounds g) (c := start d.params file)
    hfuel hentry rfl fun fuel' hleft _ => ?_
  refine Pairing.along_whole Pairing.keeps_watched h.whole hplain hg
    (Pairing.grants_watched hglobals)
    fun live => ?_
  exact Pairing.At.start file self hargs (hleft _ _ hfuel) live

/-- A call of the graph is the strict run from the function itself and the arguments. -/
theorem invoke_eq (h : Lowers d file c) (env : Surroundings σ) (p : Provenance) (n : Nat)
    (hargs : args.length = d.params.length) : (c.marked (some p)).graph.invoke env n args
      = Strict.runFor env (c.marked (some p)).graph (some n) .entry (Registers.bind (fun _ => none)
        ((Graph.newParams 0 (d.params.length + 1)).map Prod.fst) (.func p.callee :: args)) := by
  obtain ⟨block, hb, hparams⟩ := h.entry
  have hentry : (c.marked (some p)).graph.entry = block := Graph.entry_of_block? hb
  have harity : args.length = (c.marked (some p)).graph.arity := by
    have hself : (c.marked (some p)).graph.self?.isSome = true := rfl
    rw [Graph.arity, if_pos hself, hentry, hparams, Graph.length_newParams, hargs,
      Nat.add_sub_cancel]
  have harguments : (c.marked (some p)).graph.arguments
      = (Graph.newParams 0 (d.params.length + 1)).map Prod.fst := by
    rw [Graph.arguments, hentry, Block.paramVars, hparams]
  have hsound := h.continues.1.sound.marked (p := some p)
  rw [Graph.invoke_eq_strict hsound.coherent hsound.size_pos (h.wellFormed (some p)) env n harity,
    Strict.run, harguments]
  rfl

/-- **Tree and graph end alike**, if no call has a name stand for something else. -/
theorem endAlike (h : Lowers d file c) (hplain : Stmt.ArePlain d.body)
    (hargs : args.length = d.params.length) (hglobals : ∀ n ∈ d.globals, (env.global s n).isSome)
    (hkept : d.Undisturbed env args s) (p : Provenance) :
    Run.EndAlike (fun n => (c.marked (some p)).graph.invoke env n args)
      (fun n => d.run env n args) s := by
  have hg : c.graph.Grows (c.marked (some p)).graph := .refl c.graph
  have halong := fun {lag : Lag} {rounds : Nat} {fuel : Option Nat} (hfuel : lag.Allows
    rounds fuel) =>
    h.along (s := s) hplain hargs hglobals (.func p.callee) hg hfuel (s, false) (s, false)
      ⟨rfl, Pairing.fixes_watched⟩
  intro r t
  constructor
  · rintro ⟨n, hn⟩
    obtain ⟨r', t', hgraph, hend⟩ := (invoke_watching env d.globals _ n args s).2 hn
    -- the graph has fuel for no more blocks than the tree has for rounds
    have hallows : Lag.second.Allows n (some n) := ⟨n, Nat.le_refl n, rfl⟩
    rw [h.invoke_eq _ p n hargs] at hgraph
    rcases (halong hallows).of_second hgraph with
      ⟨e, t'', htree, hstopped⟩ | ⟨r'', t'', htree, ⟨rfl, -⟩, hfits⟩
    · cases (hkept n _ t'' htree).symm.trans hstopped
    · rcases hend with hstopped | ⟨rfl, rfl⟩
      · cases (hkept n _ t'' htree).symm.trans hstopped
      · rw [hfits.eq] at htree
        exact ⟨n, hkept.run_watching.1 htree⟩
  · rintro ⟨n, hn⟩
    have htree := hkept.run_watching.2 hn
    have hallows : Lag.first.Allows n none := rfl
    rcases (halong hallows).of_first htree with
      ⟨e, t', heq, hstopped⟩ | ⟨r', t', hgraph, ⟨rfl, -⟩, hfits⟩
    · obtain ⟨-, rfl⟩ := Prod.mk.inj (Option.some.inj (htree.symm.trans heq))
      cases hstopped
    · obtain ⟨k, hk⟩ := (Strict.runFor_none_eq_some _ _).1 hgraph
      refine ⟨k, (invoke_watching env d.globals _ k args s).1 ?_⟩
      rw [h.invoke_eq _ p k hargs, hfits.eq]
      exact hk

end Chart.Lowers

/-- **Lowering preserves meaning.** Take any function of a program text, as many arguments as it
takes, and any surroundings in a state where each name that it takes from outside stands for
something, such that no call in the run of its tree has one of them stand for something else. Then
its graph, called with the arguments, ends with the same value or the same fault as its tree, in the
same state and with the same calls made, or neither of them ends. So it is also where a further call
than a given number stops the run, and thus both make the same calls in the same order even if they
never end. -/
theorem lowering_preserves {text : String} {ds : List Source.Function}
    (hread : readProgram text = .ok ds) {p : Provenance} (hp : p.definition ∈ ds)
    (env : Surroundings σ) {args : List Value} (hargs : args.length = p.definition.params.length)
    (s : σ) (hglobals : ∀ n ∈ p.definition.globals, (env.global s n).isSome)
    (hkept : p.definition.Undisturbed env args s) :
    ∃ g, lower p = .ok g
      ∧ Run.EndAlike (fun n => g.invoke env.recorded n args)
        (fun n => p.definition.run env.recorded n args) (s, [])
      ∧ ∀ limit, Run.EndAlike (fun n => g.invoke (env.limited limit) n args)
        (fun n => p.definition.run (env.limited limit) n args) (s, []) := by
  obtain ⟨c, h⟩ := Chart.exists_lowers p.definition p.file
  have hplain := plain_readProgram hread p.definition hp
  refine ⟨(c.marked (some p)).graph, ?_, ?_, fun limit => ?_⟩
  · rw [lower, h.yields]
    rfl
  · refine h.endAlike hplain hargs ?_ hkept.recorded p
    exact hglobals
  · refine h.endAlike hplain hargs ?_ (hkept.limited limit) p
    exact hglobals

/-- Surroundings in which every name stands for `nothing`, and every call tells whether the count is
above zero and lowers it. -/
def counting : Surroundings Nat := { Graph.countdown with global := fun _ _ => some .nothing }

/-- A loop that calls until the count is used up. -/
def drain : Source.Function where
  name := "drain"
  params := ["x"]
  body :=
    [.whileLoop 1 (.call (.name "more") [.name "x"]) [.assign 1 "x" (.call (.name "take") [])],
    .expr 1 (.name "x")]
  line := 1

/-- The loop's graph makes the same calls as its tree, and gives back what the last call in its body
did. -/
theorem drain_preserved : readProgram "fn drain(x) { while more(x) { x = take() } x }" = .ok [drain]
    ∧ drain.globals = ["more", "take"] ∧ drain.Undisturbed counting [.bool true] 3
    ∧ (∃ g, lower ⟨⟨0⟩, "drain", "a", drain, ⟨[]⟩⟩ = .ok g
      ∧ Run.EndAlike (fun n => g.invoke counting.recorded n [.bool true])
        (fun n => drain.run counting.recorded n [.bool true]) (3, [])
      ∧ ∀ limit, Run.EndAlike (fun n => g.invoke (counting.limited limit) n [.bool true])
        (fun n => drain.run (counting.limited limit) n [.bool true]) (3, []))
    ∧ drain.run counting 3 [.bool true] 3 = some (.ok (.bool false), 0) := by
  have hread : readProgram "fn drain(x) { while more(x) { x = take() } x }" = .ok [drain] := by cbv
  have hkept : drain.Undisturbed counting [.bool true] 3 :=
    Source.Function.undisturbed_of_call fun _ _ _ _ _ _ _ _ => rfl
  exact ⟨hread, by
    cbv, hkept, lowering_preserves hread List.mem_cons_self counting rfl 3 (fun _ _ => rfl) hkept,
    by cbv⟩

end Interpose
