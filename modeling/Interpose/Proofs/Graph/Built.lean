import Interpose.Graph.Prune
import Interpose.Proofs.EditPass
import Interpose.Proofs.Graph.Coherence

/-!
# Graphs that come about by edits

A graph is *built* when it is made from an empty one by edits, by passes, by pruning and by
canonical numbering, in any order and any number. Whatever holds of all graphs that a program can
come by is proved by induction on how the graph was built: here, that its table agrees with its
blocks and that it has an entry.
-/

set_option autoImplicit false

namespace Interpose

/-- The states that an edit pass over a graph goes through. -/
inductive EditPass.Passed (g : Graph) : EditPass → Prop
  | start : Passed g (.start g)
  | advance {p : EditPass} : Passed g p → Passed g p.advance
  | insertBefore {p p' : EditPass} {v new : Variable} {s : Statement} :
    Passed g p → p.insertBefore v s = .ok (p', new) → Passed g p'
  | insertAfter {p p' : EditPass} {v new : Variable} {s : Statement} :
    Passed g p → p.insertAfter v s = .ok (p', new) → Passed g p'
  | replace {p p' : EditPass} {v : Variable} {s : Statement} :
    Passed g p → p.replace v s = .ok p' → Passed g p'
  | delete {p p' : EditPass} {v : Variable} {s : Statement} :
    Passed g p → p.delete v = .ok (p', s) → Passed g p'
  | substitute {p p' : EditPass} {v : Variable} {op : Operand} :
    Passed g p → p.substitute v op = .ok p' → Passed g p'

/-- A pass over a coherent graph is sound at every moment. -/
theorem EditPass.Passed.sound {g : Graph} {p : EditPass} (h : Passed g p) (hg : g.Coherent) :
    p.Sound := by
  induction h with
  | start => exact sound_start hg
  | advance _ ih => exact ih.advance
  | insertBefore _ hp ih => exact ih.insertBefore hp
  | insertAfter _ hp ih => exact ih.insertAfter hp
  | replace _ hp ih => exact ih.replace hp
  | delete _ hp ih => exact ih.delete hp
  | substitute _ hp ih => exact ih.substitute hp

/-- A pass leaves the blocks of its graph as they are until it is finished. -/
theorem EditPass.Passed.blocks {g : Graph} {p : EditPass} (h : Passed g p) :
    p.source.blocks = g.blocks := by
  induction h with
  | start => rfl
  | @advance p _ ih =>
    rw [← ih, EditPass.advance, source_seek, source_flush]
  | insertBefore _ hp ih =>
    obtain ⟨-, rfl, -⟩ := insertBefore_eq_ok.1 hp
    exact ih
  | insertAfter _ hp ih =>
    obtain ⟨-, rfl, -⟩ := insertAfter_eq_ok.1 hp
    exact ih
  | replace _ hp ih =>
    obtain ⟨-, rfl⟩ := replace_eq_ok.1 hp
    exact ih
  | delete _ hp ih =>
    obtain ⟨-, -, rfl⟩ := delete_eq_ok.1 hp
    exact ih
  | substitute _ hp ih =>
    obtain ⟨-, -, rfl⟩ := substitute_eq_ok.1 hp
    exact ih

namespace Graph

/-- The graphs that edits can make. A refused edit makes none. -/
inductive Built : Graph → Prop
  | empty : Built .empty
  /-- What a graph notes about its lines and its origin is free. -/
  | noted {g : Graph} (lines : List SourceLine) (provenance : Option Provenance) :
    Built g → Built { g with lines, provenance }
  | addBlock {g : Graph} : Built g → Built g.addBlock.1
  | addParamAt {g g' : Graph} {b : BlockId} {position : Nat} {ty : Ty} {default : Operand}
    {v : Variable} :
    Built g → g.addParamAt b position ty default = .ok (g', v) → Built g'
  | pushTo {g g' : Graph} {b : BlockId} {s : Statement} {v : Variable} :
    Built g → g.pushTo b s = .ok (g', v) → Built g'
  | prependTo {g g' : Graph} {b : BlockId} {s : Statement} {v : Variable} :
    Built g → g.prependTo b s = .ok (g', v) → Built g'
  | insertBefore {g g' : Graph} {v new : Variable} {s : Statement} :
    Built g → g.insertBefore v s = .ok (g', new) → Built g'
  | insertAfter {g g' : Graph} {v new : Variable} {s : Statement} :
    Built g → g.insertAfter v s = .ok (g', new) → Built g'
  | set {g g' : Graph} {v : Variable} {s old : Statement} :
    Built g → g.set v s = .ok (g', old) → Built g'
  | delete {g g' : Graph} {v : Variable} {old : Statement} :
    Built g → g.delete v = .ok (g', old) → Built g'
  /-- Operands may be replaced by a function that remembers what it has seen. -/
  | replaceOperandsM {g g' : Graph} {τ : Type} {f : Operand → StateM τ (Option Operand)} {t t' : τ}
    {n : Nat} : Built g → (g.replaceOperandsM f).run t = (.ok (g', n), t') → Built g'
  | routeCalls {g : Graph} (via : Operand) : Built g → Built (g.routeCalls via).1
  | addBranch {g g' : Graph} {b : BlockId} {br : Branch} :
    Built g → g.addBranch b br = .ok g' → Built g'
  | prune {g : Graph} : Built g → Built g.prune.1
  | canonical {g : Graph} : Built g → Built g.canonical
  | pass {g g' : Graph} {p : EditPass} :
    Built g → EditPass.Passed g p → p.finish = .ok g' → Built g'

namespace Built

variable {g g' : Graph}

/-! ## Edits that are cases of others -/

theorem ofProvenance (p : Provenance) : Built (.ofProvenance p) := empty.noted [] (some p)

theorem emptyLike (g : Graph) : Built g.emptyLike := empty.noted g.lines g.provenance

theorem addParamWith (h : Built g) {b : BlockId} {ty : Ty} {default : Operand} {v : Variable}
    (hparam : g.addParamWith b ty default = .ok (g', v)) : Built g' := by
  obtain ⟨block, -, hparam⟩ := bind_eq_ok.1 hparam
  exact h.addParamAt hparam

theorem addParam (h : Built g) {b : BlockId} {ty : Ty} {v : Variable}
    (hparam : g.addParam b ty = .ok (g', v)) : Built g' := h.addParamWith hparam

theorem push (h : Built g) {s : Statement} {v : Variable} (hpush : g.push s = .ok (g', v)) :
    Built g' :=
  h.pushTo hpush

theorem prepend (h : Built g) {s : Statement} {v : Variable}
    (hprepend : g.prepend s = .ok (g', v)) :
    Built g' := h.prependTo hprepend

theorem internLine (h : Built g) (l : SourceLine) : Built (g.internLine l).1 := by
  unfold Graph.internLine
  split
  · exact h
  · exact h.noted _ _

/-! ## What every built graph has -/

/-- **The table of a built graph agrees with its blocks.** -/
theorem coherent (h : Built g) : g.Coherent := by
  induction h with
  | empty => exact coherent_empty
  | noted _ _ _ ih => exact ih
  | addBlock _ ih => exact ih.addBlock
  -- each edit changes one row, behind a place that was checked, and the rest of the row is numbered
  -- again
  | addParamAt _ hg ih =>
    obtain ⟨block, hb, -, hle, rfl, -⟩ := addParamAt_eq_ok.1 hg
    exact ih.withParam hb hle _ _
  | pushTo _ hg ih =>
    obtain ⟨block, hb, -, rfl, -⟩ := pushTo_eq_ok.1 hg
    exact ih.inserted hb (Nat.le_refl _) _
  | prependTo _ hg ih =>
    obtain ⟨block, hb, -, rfl, -⟩ := prependTo_eq_ok.1 hg
    exact ih.inserted hb (Nat.zero_le _) _
  | insertBefore _ hg ih =>
    obtain ⟨b, i, hv, -, rfl, -⟩ := insertBefore_eq_ok.1 hg
    obtain ⟨block, _, hb, hi⟩ := ih.statement_of_site hv
    exact ih.inserted hb (Nat.le_of_lt (List.getElem?_eq_some_iff.1 hi).1) _
  | insertAfter _ hg ih =>
    obtain ⟨b, i, hv, -, rfl, -⟩ := insertAfter_eq_ok.1 hg
    obtain ⟨block, _, hb, hi⟩ := ih.statement_of_site hv
    exact ih.inserted hb (List.getElem?_eq_some_iff.1 hi).1 _
  | set _ hg ih => exact ih.set hg
  | delete _ hg ih => exact ih.delete hg
  | replaceOperandsM _ hg ih => exact ih.replaceOperandsM hg
  | routeCalls via _ ih => exact ih.routeCalls via
  | addBranch _ hg ih => exact ih.addBranch hg
  | prune _ ih => exact ih.prune
  | canonical _ ih => exact ih.canonical
  | pass _ hp hg ih => exact (hp.sound ih).finish hg

/-- **A built graph has an entry.** Edits add blocks at the end, and pruning keeps what is
reached. -/
theorem size_pos (h : Built g) : 0 < g.blocks.size := by
  induction h with
  | empty => exact Nat.one_pos
  | noted _ _ _ ih => exact ih
  | addBlock _ ih => simp [Graph.addBlock]
  | addParamAt _ hg ih =>
    obtain ⟨block, -, -, -, rfl, -⟩ := addParamAt_eq_ok.1 hg
    simpa [withParam] using ih
  | pushTo _ hg ih =>
    obtain ⟨block, -, -, rfl, -⟩ := pushTo_eq_ok.1 hg
    simpa [inserted, modifyBlock] using ih
  | prependTo _ hg ih =>
    obtain ⟨block, -, -, rfl, -⟩ := prependTo_eq_ok.1 hg
    simpa [inserted, modifyBlock] using ih
  | insertBefore _ hg ih =>
    obtain ⟨b, i, -, -, rfl, -⟩ := insertBefore_eq_ok.1 hg
    simpa [inserted, modifyBlock] using ih
  | insertAfter _ hg ih =>
    obtain ⟨b, i, -, -, rfl, -⟩ := insertAfter_eq_ok.1 hg
    simpa [inserted, modifyBlock] using ih
  | set _ hg ih =>
    obtain ⟨b, i, -, -, rfl, -⟩ := set_eq_ok.1 hg
    simpa [modifyBlock] using ih
  | delete _ hg ih =>
    obtain ⟨b, i, -, -, rfl, -⟩ := delete_eq_ok.1 hg
    simpa [erased, modifyBlock] using ih
  | replaceOperandsM _ hg ih =>
    have hlength := congrArg List.length (replaceOperandsM_vars hg).2
    simp only [List.length_map, Array.length_toList] at hlength
    omega
  | routeCalls via _ ih => simpa [Graph.routeCalls] using ih
  | addBranch _ hg ih =>
    obtain ⟨block, -, -, -, -, rfl⟩ := addBranch_eq_ok.1 hg
    simpa [modifyBlock] using ih
  | prune _ ih => exact size_prune_pos ih
  | canonical _ ih => simpa [Graph.canonical] using ih
  -- what a pass wrote is cut into as many blocks as it was given
  | pass _ hp hg ih =>
    obtain ⟨blocks, hblocks, rfl, -, -⟩ := EditPass.finish_eq_ok.1 hg
    have hlength := length_of_mapM_eq_ok hblocks
    rw [← hp.blocks] at ih
    simpa [renumbered, hlength, EditPass.assembled, EditPass.source_flush] using ih

end Built

end Graph

end Interpose
