import Interpose.Proofs.Graph.Shape
import Interpose.Proofs.Pass.Result
import Interpose.Proofs.Run.Renamed

/-!
# Canonical numbers decide equality up to names

Two graphs in order have the same shape exactly if a one-to-one renaming carries the blocks of the
first onto those of the second, place by place. The numbers of a copy in canonical numbers are
settled by the places where variables are bound, so nothing of the history of the graph is left in
them. The copy is in order if the graph is, it is its own copy, and no run tells it from the graph.
-/

set_option autoImplicit false

namespace Interpose

namespace Graph

/-- The variables are numbered in the order of their definitions, and no other number was ever
handed out. -/
def IsCanonical (g : Graph) : Prop := g.boundVars = (List.range g.varCount).map .mk

variable {g g' : Graph}

theorem varCount_canonical (g : Graph) : g.canonical.varCount = g.boundVars.length :=
  size_sitesOf ..

/-- A copy in canonical numbers is canonical. -/
theorem isCanonical_canonical (hnd : g.boundVars.Nodup) : g.canonical.IsCanonical := by
  rw [IsCanonical, varCount_canonical, boundVars_canonical hnd]

/-! ## Copies of canonical graphs -/

/-- In a canonical graph every variable has its canonical number already. -/
theorem IsCanonical.rename_eq (h : g.IsCanonical) (hnd : g.boundVars.Nodup) :
    rename g.boundVars = id := by
  funext v
  by_cases hv : v ∈ g.boundVars
  · obtain ⟨i, hi⟩ := List.mem_iff_getElem?.1 hv
    rw [rename_of_getElem? hnd hi]
    have hlt := (List.getElem?_eq_some_iff.1 hi).1
    rw [h, List.length_map, List.length_range] at hlt
    rw [h, List.getElem?_map, List.getElem?_range hlt] at hi
    exact Option.some.inj hi
  · exact rename_of_notMem hv

/-- A canonical graph is its own copy, and its table is the one that is read off the blocks. -/
theorem IsCanonical.canonical_eq (h : g.IsCanonical) (hg : g.Coherent) : g.canonical = g := by
  have hblocks : g.canonical.blocks = g.blocks := by
    rw [canonical, h.rename_eq hg.nodup_boundVars, funext renameBlock_id]
    exact Array.map_id _
  have hcount : g.canonical.varCount = g.varCount := by
    rw [varCount_canonical, h, List.length_map, List.length_range]
  have hsites := hg.canonical.sites_unique hg hblocks hcount
  show Graph.mk g.canonical.sites g.canonical.blocks g.lines g.provenance = g
  rw [hsites, hblocks]

/-! ## Runs of copies -/

/-- No run tells the copy from the graph. -/
theorem invoke_canonical (hg : g.Coherent) (hused : g.WellUsed) {σ : Type} (env : Surroundings σ)
    (fuel : Nat) (args : List Value) :
    g.canonical.invoke env fuel args = g.invoke env fuel args := by
  have hnd := hg.nodup_boundVars
  refine invoke_rename (renamedBy_canonical g) rfl hused.bound
    (fun v hv w hw => eq_of_rename_eq hnd (.inl hv) hw)
    (fun v hv => ⟨hg.lt_varCount hv, ?_⟩) fuel args
  obtain ⟨i, hi⟩ := List.mem_iff_getElem?.1 hv
  rw [rename_of_getElem? hnd hi, varCount_canonical]
  exact (List.getElem?_eq_some_iff.1 hi).1

/-! ## What canonical numbers are good for -/

/-- **Canonical numbers decide equality up to names.** Graphs in order have the same shape exactly
if some one-to-one renaming of the bound variables carries the one onto the other. The copy of a
graph in order is in order, its variables are numbered from zero on in the order of their
definitions, and its counter is their number. A graph that is canonical already is its own copy, and
so a copy is. Calls of the copy and of the graph make the same calls and end alike, whatever they
are made on and whatever surrounds them. -/
theorem sameShape_exact (h : Arises g) (h' : Arises g') (hv : g.verify = .ok ())
    (hv' : g'.verify = .ok ()) :
    (g.sameShape g' = true ↔ ∃ f, CarriedBy f g g')
    ∧ g.canonical.verify = .ok ()
    ∧ (g.canonical.IsCanonical ∧ g.canonical.varCount = g.boundVars.length)
    ∧ (g.IsCanonical → g.canonical = g)
    ∧ g.canonical.canonical = g.canonical
    ∧ ∀ (σ : Type) (env : Surroundings σ) (fuel : Nat) (args : List Value),
      g.canonical.invoke env fuel args = g.invoke env fuel args := by
  have hg := h.coherent.verify_eq_ok.1 hv
  have hg' := h'.coherent.verify_eq_ok.1 hv'
  have hnd := h.coherent.nodup_boundVars
  have hcopy := isCanonical_canonical hnd
  have hrenamed := renamedBy_canonical g
  refine ⟨sameShape_iff_carriedBy hg.toWellUsed hg'.toWellUsed hnd h'.coherent.nodup_boundVars, ?_,
    ⟨hcopy, varCount_canonical g⟩, fun hc => hc.canonical_eq h.coherent,
    hcopy.canonical_eq h.coherent.canonical,
    fun σ env => invoke_canonical h.coherent hg.toWellUsed env⟩
  exact h.coherent.canonical.verify_eq_ok.2
    ⟨hrenamed.wellEnded_iff.2 hg.toWellEnded, hrenamed.wellUsed hg.toWellUsed⟩

/-- Work on an empty graph that makes the loop through the entry after a statement that is deleted
again. -/
def lateLoopEdits : List Edit := [
  .pushTo .entry (.plain (.operand (.const .nothing))),
  .addParam .entry .any,
  .pushTo .entry (.plain (.call (.var ⟨1⟩) [])),
  .delete ⟨0⟩,
  .addBlock,
  .branchUnless .entry ⟨1⟩ [] ⟨2⟩,
  .branchTo .entry .entry [.var ⟨2⟩],
  .leaveWith ⟨1⟩ (.var ⟨2⟩)]

/-- The loop through the entry under later numbers. -/
def lateLoop : Graph where
  sites := #[.deleted, .param .entry 0, .statement .entry 0]
  blocks := #[
    ⟨[(⟨1⟩, .any)], [(⟨2⟩, .plain (.call (.var ⟨1⟩) []))],
      [(Branch.jump ⟨1⟩ []).whenFalse ⟨2⟩, .jump .entry [.var ⟨2⟩]]⟩,
    ⟨[], [], [.leave (.var ⟨2⟩)]⟩]
  lines := []
  provenance := none

theorem arises_lateLoop : Arises lateLoop :=
  have hedits : (Graph.workAll .empty (lateLoopEdits.map .edit)).1 = lateLoop := by cbv
  hedits ▸ (Arises.initial .empty).workAll (lateLoopEdits.map .edit)

/-- The loop under later numbers has the same shape as the one that was made at once, which is its
copy and calls until the count is used up. -/
theorem sameShape_lateLoop :
    Arises lateLoop ∧ Arises callLoop ∧ lateLoop.verify = .ok () ∧ callLoop.verify = .ok ()
    ∧ (∃ f, CarriedBy f lateLoop callLoop) ∧ lateLoop.canonical = callLoop ∧ lateLoop ≠ callLoop
    ∧ callLoop.invoke countdown 4 [.nothing] = lateLoop.invoke countdown 4 [.nothing] := by
  have hverify : lateLoop.verify = .ok () := by cbv
  obtain ⟨hshape, -, -, -, -, hruns⟩ :=
    sameShape_exact arises_lateLoop arises_callLoop hverify verify_callLoop
  have hcopy : lateLoop.canonical = callLoop := by cbv
  have hne : lateLoop ≠ callLoop := fun heq => absurd (congrArg varCount heq) (by decide)
  exact ⟨arises_lateLoop, arises_callLoop, hverify, verify_callLoop, hshape.1 (by cbv), hcopy, hne,
    hcopy ▸ hruns Nat countdown 4 [.nothing]⟩

end Graph

end Interpose
