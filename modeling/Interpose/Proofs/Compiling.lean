import Interpose.Host.Perform
import Interpose.Proofs.Lowering.Whole
import Interpose.Proofs.Run.Basic

/-!
# Every function can be compiled

What is lowered is in order and loses nothing to the removal of unreached blocks, so every backend
takes it as it is. A host can therefore compile each of its source functions whenever one is called,
and what a source text defines are source functions.
-/

set_option autoImplicit false

namespace Interpose

open Source

/-- A graph whose blocks are all reached loses none. -/
theorem Graph.prune_eq_self {g : Graph} (h : ∀ b, b.index < g.blocks.size → b ∈ g.reachable) :
    g.prune = (g, 0) := by
  have hall : g.reachable = g.blockIds := by
    refine List.filter_eq_self.2 fun b hb => ?_
    exact (List.mem_filter.1 (h b ((g.mem_blockIds b).1 hb))).2
  have hsize : g.reachable.length = g.blocks.size := by
    rw [hall, blockIds, List.length_map, List.length_range]
  have hnone : g.blocks.size - g.reachable.length = 0 := by omega
  rw [prune]
  dsimp only
  rw [if_pos hnone]

/-- Every backend takes a graph in order with all blocks reached as it is. -/
theorem Backend.prepare_eq_ok (backend : Backend) {g : Graph} (hverify : g.verify = .ok ())
    (hreached : ∀ b, b.index < g.blocks.size → b ∈ g.reachable) : backend.prepare g = .ok g := by
  have hpruned : (if backend.prunes then g.prune.1 else g) = g := by
    rw [Graph.prune_eq_self hreached, ite_self]
  unfold prepare
  dsimp only
  rw [hpruned]
  by_cases hverifies : backend.verifies = true
  · rw [if_pos hverifies, hverify]
  · rw [if_neg hverifies]

namespace Chart

variable {c : Chart} {d : Source.Function} {file : String}

theorem Lowers.verify (h : Lowers d file c) (p : Option Provenance) :
    (c.marked p).graph.verify = .ok () :=
  Graph.Coherent.verify_eq_ok h.continues.1.sound.marked.coherent |>.2 (h.wellFormed p)

end Chart

/-- The graph of a function is lowered and compiled, with the mark of where it comes from. -/
theorem exists_lower (p : Provenance) : ∃ g, lower p = .ok g
    ∧ ∀ backend : Backend, backend.prepare g = .ok g := by
  obtain ⟨c, h⟩ := Chart.exists_lowers p.definition p.file
  refine ⟨(c.marked (some p)).graph, ?_, fun backend =>
    backend.prepare_eq_ok (h.verify (some p)) (h.reachable (some p))⟩
  rw [lower, h.yields]
  rfl

/-! ## Hosts -/

namespace Host

variable {V : Vocabulary} {h h' : Host V} {f : FuncId}

/-- A source function is registered under the number. -/
def IsSource (h : Host V) (f : FuncId) : Prop :=
  ∃ name d file, h.function? f = some ⟨name, .source d file⟩

/-- A source function's graph is lowered from its definition, for arguments about which nothing is
known. -/
theorem graphOf_eq_lower {name file : String} {d : Source.Function}
    (hf : h.function? f = some ⟨name, .source d file⟩) :
    h.graphOf f = lower ⟨f, name, file, d, ⟨.func f :: d.params.map fun _ => .any⟩⟩ := by
  let sig : Signature := ⟨.func f :: d.params.map fun _ => .any⟩
  have hsize : sig.size = d.params.length + 1 := by simp [sig, Signature.size]
  have hprovenance : h.provenance sig = .ok ⟨f, name, file, d, sig⟩ := by
    have hcallee : sig.callee? = some (.func f) := rfl
    rw [provenance, hcallee]
    dsimp only
    rw [hf]
    dsimp only
    rw [if_pos hsize]
  rw [Host.graphOf, hf]
  dsimp only
  rw [hprovenance]
  rfl

theorem IsSource.graphOf (hf : h.IsSource f) : ∃ p, h.graphOf f = lower p := by
  obtain ⟨name, d, file, hf⟩ := hf
  exact ⟨_, graphOf_eq_lower hf⟩

theorem compile_eq_ok {g : Graph} (hg : h.backend.prepare g = .ok g) :
    h.compile g = .ok ({ h with serial := h.serial + 1 }, ⟨h.serial, g, h.backend.hides⟩) := by
  rw [compile, hg]
  rfl

/-- A compiled graph that is kept is used again. -/
theorem directUnit_kept {u : Compiled} (hkept : h.compiled.get? f = some u) :
    directUnit f h = some (.ok u, h) := by
  unfold directUnit
  rw [Run.get_bind_apply, hkept]
  rfl

/-- Where none is kept, the graph of the function is compiled, and kept from then on. -/
theorem directUnit_compiled {g : Graph} (hkept : h.compiled.get? f = none)
    (hgraph : h.graphOf f = .ok g) (hprepare : h.backend.prepare g = .ok g) :
    directUnit f h = some (.ok ⟨h.serial, g, h.backend.hides⟩,
      { h with
        serial := h.serial + 1
        compiled := h.compiled.insert f ⟨h.serial, g, h.backend.hides⟩ }) := by
  have hlowered : Run.ofGraph (h.graphOf f) h = some (.ok g, h) := by
    rw [hgraph]
    rfl
  have hchange : Exec.change (·.compile g) h
      = some (.ok ⟨h.serial, g, h.backend.hides⟩, { h with serial := h.serial + 1 }) := by
    unfold Exec.change
    rw [Run.get_bind_apply]
    dsimp only
    rw [compile_eq_ok hprepare]
    rfl
  unfold directUnit
  rw [Run.get_bind_apply, hkept]
  dsimp only
  rw [Run.get_bind_apply, Run.bind_apply, hlowered]
  dsimp only
  rw [Run.bind_apply, hchange]
  rfl

/-- **A call of a source function gets its compiled graph**, one that is kept or a new one. -/
theorem IsSource.directUnit (hf : h.IsSource f) : ∃ u h', directUnit f h = some (.ok u, h') := by
  obtain ⟨p, hgraph⟩ := hf.graphOf
  obtain ⟨g, hlower, hprepare⟩ := exists_lower p
  rcases hkept : h.compiled.get? f with _ | u
  · exact ⟨_, _, directUnit_compiled hkept (hgraph.trans hlower) (hprepare h.backend)⟩
  · exact ⟨u, h, directUnit_kept hkept⟩

/-! ## Definitions -/

theorem isSource_iff : h.IsSource f
    ↔ ∃ fn d file, h.functions[f.index]? = some fn ∧ fn.body = .source d file := by
  constructor
  · rintro ⟨name, d, file, hf⟩
    exact ⟨_, d, file, hf, rfl⟩
  · rintro ⟨⟨name, body⟩, d, file, hf, rfl⟩
    exact ⟨name, d, file, hf⟩

/-- A source function that is installed is registered, and the others stay what they are. -/
theorem IsSource.install {fn : Function V} {d : Source.Function} {file : String}
    (hfn : fn.body = .source d file) (hinstall : h.install fn = .ok (h', f)) :
    h'.IsSource f ∧ ∀ f', h.IsSource f' → h'.IsSource f' := by
  have hadd : (h.addFunction fn).1.IsSource (h.addFunction fn).2
      ∧ ∀ f', h.IsSource f' → (h.addFunction fn).1.IsSource f' := by
    refine ⟨isSource_iff.2 ⟨fn, d, file, Array.getElem?_push_size, hfn⟩, fun f' hf' => ?_⟩
    obtain ⟨fn', d', file', hget, hbody⟩ := isSource_iff.1 hf'
    have hlt := (Array.getElem?_eq_some_iff.1 hget).1
    refine isSource_iff.2 ⟨fn', d', file', ?_, hbody⟩
    exact (Array.getElem?_push_lt hlt).trans ((Array.getElem?_eq_getElem hlt).symm.trans hget)
  unfold Host.install at hinstall
  split at hinstall
  · next g hname =>
    -- the name stands for a function, which is replaced
    split at hinstall
    · next hlt =>
      cases hinstall
      have hself : (h.replaceFunction f fn).IsSource f :=
        isSource_iff.2 ⟨fn, d, file, Array.getElem?_setIfInBounds_self_of_lt hlt, hfn⟩
      refine ⟨hself, fun f' hf' => ?_⟩
      by_cases hff : f = f'
      · exact hff ▸ hself
      · obtain ⟨fn', d', file', hget, hbody⟩ := isSource_iff.1 hf'
        have hne : f.index ≠ f'.index :=
          fun h => hff (by cases f; cases f'; exact congrArg FuncId.mk h)
        exact isSource_iff.2 ⟨fn', d', file', (Array.getElem?_setIfInBounds_ne hne).trans hget,
          hbody⟩
    · cases hinstall
  · cases hinstall
  · cases hinstall
    exact hadd

/-- What is installed one after another is registered at the end. -/
theorem IsSource.installAll (file : String) (fns : List (Function V))
    (hfns : ∀ fn ∈ fns, ∃ d, fn.body = .source d file) {fs : List FuncId}
    (hall : h.installAll fns = (h', .ok fs)) :
    (∀ f ∈ fs, h'.IsSource f) ∧ ∀ f, h.IsSource f → h'.IsSource f := by
  induction fns generalizing h fs with
  | nil =>
    cases hall
    exact ⟨nofun, fun _ hf => hf⟩
  | cons fn rest ih =>
    obtain ⟨d, hfn⟩ := hfns fn List.mem_cons_self
    unfold Host.installAll at hall
    rcases hinstall : h.install fn with e | ⟨h₁, f₁⟩
    · rw [hinstall] at hall
      cases hall
    · rw [hinstall] at hall
      obtain ⟨hself, hothers⟩ := IsSource.install hfn hinstall
      rcases hrest : h₁.installAll rest with ⟨h₂, result⟩
      dsimp only at hall
      rw [hrest] at hall
      rcases result with e | fs'
      · cases hall
      · cases hall
        obtain ⟨hnew, hkept⟩ := ih (fun fn' hfn' => hfns fn' (List.mem_cons_of_mem fn hfn')) hrest
        refine ⟨fun f hf => ?_, fun f hf => hkept f (hothers f hf)⟩
        rcases List.mem_cons.1 hf with rfl | hf
        · exact hkept f hself
        · exact hnew f hf

/-- What a source text defines are source functions. -/
theorem isSource_of_define {file src : String} {fs : List FuncId}
    (hdefine : h.define file src = (h', .ok fs)) : ∀ f ∈ fs, h'.IsSource f := by
  unfold define sourceFunctions at hdefine
  rcases hprogram : readProgram src with e | ds
  · rw [hprogram] at hdefine
    cases hdefine
  · rw [hprogram] at hdefine
    refine (IsSource.installAll file _ (fun fn hfn => ?_) hdefine).1
    obtain ⟨d, -, rfl⟩ := List.mem_map.1 hfn
    exact ⟨d, rfl⟩

end Host

/-- **Lowering always yields a graph in order.** Every function is lowered; the graph passes the
check, for the blocks end as they should, the branches are balanced and all that is read is bound
before; all its blocks are reached, so none is removed; and the entry takes one parameter more than
the function. A host can therefore compile every source function that it is called for, and these
include all that a source text defines. -/
theorem lowering_valid :
    (∀ (d : Source.Function) (file : String), ∃ g, lowerFunction d file = .ok g ∧ g.verify = .ok ()
      ∧ g.WellFormed ∧ (∀ b, b.index < g.blocks.size → b ∈ g.reachable) ∧ g.prune = (g, 0)
      ∧ g.entry.params.length = d.params.length + 1)
    ∧ ∀ (V : Vocabulary) (h : Host V),
      (∀ f, h.IsSource f → ∃ u h', directUnit f h = some (.ok u, h'))
      ∧ ∀ file src h' fs, h.define file src = (h', .ok fs) → ∀ f ∈ fs, h'.IsSource f := by
  refine ⟨fun d file => ?_, fun V h => ⟨fun f hf => hf.directUnit, fun file src h' fs hdefine =>
    Host.isSource_of_define hdefine⟩⟩
  obtain ⟨c, h⟩ := Chart.exists_lowers d file
  have hreached := h.reachable c.graph.provenance
  exact ⟨c.graph, h.yields, h.verify _, h.wellFormed _, hreached, Graph.prune_eq_self hreached,
    h.length_params⟩

/-- A function that gives back its argument is compiled in a host that knows only it. -/
theorem directUnit_identity : ∃ u h', directUnit ⟨0⟩
    ((Host.bare ⟨true, true, false⟩ 1 () : Host ⟨Unit, Unit, Unit⟩).addFunction
      ⟨"identity", .source ⟨"identity", ["x"], [.giveBack 1 (.name "x")], 1⟩ "a"⟩).1
        = some (.ok u, h') :=
  (lowering_valid.2 _ _).1 _ ⟨_, _, _, rfl⟩

end Interpose
