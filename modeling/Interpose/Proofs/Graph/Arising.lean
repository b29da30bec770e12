import Interpose.Proofs.Graph.Tidy
import Interpose.Proofs.Pass.Moves

/-!
# The table of every graph that arises

A graph begins as a new or a lowered one and is then worked on: by single edits, by passes, by
pruning. At any moment it may be numbered canonically, which begins another graph. Its table of
sites is kept up in three different ways meanwhile, and still says at every moment exactly where
each variable is bound. The counter of the table only goes up, and so no variable is handed out
twice.
-/

set_option autoImplicit false

namespace Interpose

namespace Graph

/-- What is done to a graph at a time. -/
inductive Work : Type 1
  | edit (e : Edit)
  /-- Remove the blocks that cannot be reached. -/
  | prune
  /-- Make a pass with these calls, and finish it. -/
  | pass (moves : List EditPass.Move)

/-- The graph after some work, and the variables that were handed out. What is refused has no
effect; a pass that cannot be finished leaves the graph that it was started with. -/
def Work.apply (g : Graph) : Work → Graph × List Variable
  | .edit e => e.apply g
  | .prune => (g.prune.1, [])
  | .pass moves =>
    let done := (EditPass.start g).moveAll moves
    match done.1.finish with
    | .ok g' => (g', done.2.filterMap EditPass.Event.handed?)
    | .error _ => (g, [])

/-- The graph after one piece of work after another, and the variables that were handed out, in
order. -/
def workAll (g : Graph) : List Work → Graph × List Variable
  | [] => (g, [])
  | w :: ws => ((workAll (w.apply g).1 ws).1, (w.apply g).2 ++ (workAll (w.apply g).1 ws).2)

/-- The graphs that callers come by. -/
inductive Arises : Graph → Prop
  | initial {g : Graph} : Initial g → Arises g
  | canonical {g : Graph} : Arises g → Arises g.canonical
  | work {g : Graph} (w : Work) : Arises g → Arises (w.apply g).1

/-- The table of the graph and the queries that use it say where each variable is bound. -/
structure Indexed (g : Graph) : Prop where
  statement : ∀ v b i, g.site? v = some (.statement b i)
    ↔ ∃ block s, g.block? b = some block ∧ block.body[i]? = some (v, s)
  param : ∀ v b i, g.site? v = some (.param b i)
    ↔ ∃ block ty, g.block? b = some block ∧ block.params[i]? = some (v, ty)
  deleted : ∀ v, g.site? v = some .deleted ↔ v.index < g.varCount ∧ v ∉ g.boundVars
  /-- No variable is bound twice. -/
  nodup : g.boundVars.Nodup
  lt : ∀ v ∈ g.boundVars, v.index < g.varCount
  get : ∀ v s, g.get? v = some s ↔ (v, s) ∈ g.statements
  contains : ∀ v, g.contains v = true ↔ v ∈ g.keys
  defined : ∀ v, g.isDefined v = true ↔ v ∈ g.boundVars
  home : ∀ v b, g.definingBlock? v = some b ↔ ∃ block, g.block? b = some block ∧ v ∈ block.boundVars

variable {g : Graph}

/-! ## What coherence says in full -/

theorem mem_statements {v : Variable} {s : Statement} : (v, s) ∈ g.statements
    ↔ ∃ (b : BlockId) (block : Block) (i : Nat), g.block? b = some block
      ∧ block.body[i]? = some (v, s) := by
  rw [statements, List.mem_flatMap]
  constructor
  · rintro ⟨block, hmem, hv⟩
    obtain ⟨j, hj⟩ := List.mem_iff_getElem?.1 hmem
    obtain ⟨i, hi⟩ := List.mem_iff_getElem?.1 hv
    exact ⟨⟨j⟩, block, i, by simpa [block?] using hj, hi⟩
  · rintro ⟨b, block, i, hb, hi⟩
    have hmem : g.blocks.toList[b.index]? = some block := by simpa [block?] using hb
    exact ⟨block, List.mem_iff_getElem?.2 ⟨b.index, hmem⟩, List.mem_iff_getElem?.2 ⟨i, hi⟩⟩

theorem mem_keys {v : Variable} : v ∈ g.keys
    ↔ ∃ (b : BlockId) (block : Block) (i : Nat) (s : Statement), g.block? b = some block
      ∧ block.body[i]? = some (v, s) := by
  simp only [keys, List.mem_map, Prod.exists, mem_statements]
  constructor
  · rintro ⟨v', s, ⟨b, block, i, hb, hi⟩, rfl⟩
    exact ⟨b, block, i, s, hb, hi⟩
  · rintro ⟨b, block, i, s, hb, hi⟩
    exact ⟨v, s, ⟨b, block, i, hb, hi⟩, rfl⟩

namespace Coherent

theorem site_statement_iff (h : g.Coherent) (v : Variable) (b : BlockId) (i : Nat) :
    g.site? v = some (.statement b i)
      ↔ ∃ block s, g.block? b = some block ∧ block.body[i]? = some (v, s) := by
  refine ⟨h.statement_of_site, ?_⟩
  rintro ⟨block, s, hb, hi⟩
  refine (h v (.body b) i).2 ?_
  rw [row_body_of_block? hb, Block.bodyVars, List.getElem?_map, hi]
  rfl

theorem site_param_iff (h : g.Coherent) (v : Variable) (b : BlockId) (i : Nat) :
    g.site? v = some (.param b i)
      ↔ ∃ block ty, g.block? b = some block ∧ block.params[i]? = some (v, ty) := by
  have hrow : g.site? v = some (.param b i) ↔ (g.row (.params b))[i]? = some v := h v (.params b) i
  rw [hrow]
  constructor
  · intro hi
    obtain ⟨block, hb, -⟩ := mem_row (List.mem_iff_getElem?.2 ⟨i, hi⟩)
    replace hb : g.block? b = some block := hb
    rw [row_params_of_block? hb, Block.paramVars, List.getElem?_map] at hi
    obtain ⟨⟨v', ty⟩, hparam, rfl⟩ := Option.map_eq_some_iff.1 hi
    exact ⟨block, ty, hb, hparam⟩
  · rintro ⟨block, ty, hb, hi⟩
    rw [row_params_of_block? hb, Block.paramVars, List.getElem?_map, hi]
    rfl

theorem site_deleted_iff (h : g.Coherent) (v : Variable) :
    g.site? v = some .deleted ↔ v.index < g.varCount ∧ v ∉ g.boundVars := by
  rw [← h.isDefined_iff, isDefined_iff_site]
  constructor
  · intro hv
    refine ⟨(Array.getElem?_eq_some_iff.1 hv).1, ?_⟩
    rintro ⟨site, hsite, hne⟩
    exact hne (Option.some.inj (hsite.symm.trans hv))
  · rintro ⟨hlt, hnot⟩
    have hsite : g.site? v = some g.sites[v.index] := Array.getElem?_eq_getElem hlt
    by_cases hdeleted : g.sites[v.index] = .deleted
    · rw [hsite, hdeleted]
    · exact absurd ⟨_, hsite, hdeleted⟩ hnot

theorem get?_iff (h : g.Coherent) (v : Variable) (s : Statement) :
    g.get? v = some s ↔ (v, s) ∈ g.statements := by
  rw [mem_statements]
  constructor
  · intro hget
    unfold get? at hget
    rcases hv : g.site? v with _ | site
    · rw [hv] at hget
      cases hget
    · rw [hv] at hget
      cases site with
      | param b i => cases hget
      | deleted => cases hget
      | statement b i =>
        obtain ⟨block, s', hb, hi⟩ := h.statement_of_site hv
        simp only [hb, hi, Option.bind_eq_bind, Option.bind_some, Option.pure_def,
          Option.some.injEq] at hget
        exact ⟨b, block, i, hb, hget ▸ hi⟩
  · rintro ⟨b, block, i, hb, hi⟩
    have hv := (h.site_statement_iff v b i).2 ⟨block, s, hb, hi⟩
    simp [get?, hv, hb, hi]

theorem contains_iff (h : g.Coherent) (v : Variable) : g.contains v = true ↔ v ∈ g.keys := by
  have hcontains : g.contains v = true ↔ ∃ b i, g.site? v = some (.statement b i) := by
    unfold contains
    rcases g.site? v with _ | ⟨b, i⟩ | ⟨b, i⟩ | _ <;> simp
  rw [hcontains, mem_keys]
  simp only [h.site_statement_iff]
  constructor
  · rintro ⟨b, i, block, s, hb, hi⟩
    exact ⟨b, block, i, s, hb, hi⟩
  · rintro ⟨b, block, i, s, hb, hi⟩
    exact ⟨b, i, block, s, hb, hi⟩

theorem definingBlock?_iff (h : g.Coherent) (v : Variable) (b : BlockId) :
    g.definingBlock? v = some b ↔ ∃ block, g.block? b = some block ∧ v ∈ block.boundVars := by
  have hsites : g.definingBlock? v = some b
      ↔ ∃ (r : Row) (i : Nat), g.site? v = some (r.site i) ∧ r.block = b := by
    unfold definingBlock?
    constructor
    · intro hhome
      obtain ⟨site, hv, hb⟩ := Option.bind_eq_some_iff.1 hhome
      rcases Row.eq_site site with rfl | ⟨r, i, rfl⟩
      · cases hb
      · cases r <;> exact ⟨_, i, hv, Option.some.inj hb⟩
    · rintro ⟨r, i, hv, rfl⟩
      rw [hv]
      cases r <;> rfl
  rw [hsites]
  constructor
  · rintro ⟨r, i, hv, rfl⟩
    exact mem_row (List.mem_iff_getElem?.2 ⟨i, (h v r i).1 hv⟩)
  · rintro ⟨block, hb, hv⟩
    rcases mem_row_of_mem_boundVars hb hv with hrow | hrow
    all_goals
      obtain ⟨i, hi⟩ := List.mem_iff_getElem?.1 hrow
      exact ⟨_, i, (h v _ i).2 hi, rfl⟩

/-- A table that agrees with the blocks row by row answers all queries by them. -/
theorem indexed (h : g.Coherent) : g.Indexed where
  statement := h.site_statement_iff
  param := h.site_param_iff
  deleted := h.site_deleted_iff
  nodup := h.nodup_boundVars
  lt _ hv := h.lt_varCount hv
  get := h.get?_iff
  contains := h.contains_iff
  defined := h.isDefined_iff
  home := h.definingBlock?_iff

end Coherent

/-! ## What work keeps -/

/-- The variables with the numbers from the counter on. -/
def upcoming (g : Graph) (n : Nat) : List Variable := (List.range' g.varCount n).map .mk

/-- From one graph to the next, exactly the upcoming variables were handed out. -/
def Hands (g g' : Graph) (vs : List Variable) : Prop :=
  vs = g.upcoming vs.length ∧ g'.varCount = g.varCount + vs.length

theorem Hands.nothing {g' : Graph} (h : g'.varCount = g.varCount) : Hands g g' [] := ⟨rfl, h⟩

theorem Hands.append {g₁ g₂ : Graph} {vs ws : List Variable} (h : Hands g g₁ vs)
    (h' : Hands g₁ g₂ ws) : Hands g g₂ (vs ++ ws) := by
  obtain ⟨hvs, hcount⟩ := h
  obtain ⟨hws, hcount'⟩ := h'
  refine ⟨?_, by rw [hcount', hcount, List.length_append, Nat.add_assoc]⟩
  calc vs ++ ws
    _ = (List.range' g.varCount vs.length).map .mk
      ++ (List.range' g₁.varCount ws.length).map .mk := by
      conv_lhs => rw [hvs, hws]
      rfl
    _ = (List.range' g.varCount (vs.length + ws.length)).map .mk := by
      rw [hcount, ← List.map_append, List.range'_append_1]
    _ = g.upcoming (vs ++ ws).length := by rw [List.length_append]; rfl

theorem varCount_prune (g : Graph) : g.prune.1.varCount = g.varCount := by
  unfold prune
  dsimp only
  split
  · rfl
  · rw [varCount, renumbered, size_sitesOf]
    rfl

/-- Every piece of work leaves the table in agreement with the blocks, and hands out the next
variables. -/
theorem Work.apply_keeps (hg : g.Coherent) (w : Work) :
    (w.apply g).1.Coherent ∧ Hands g (w.apply g).1 (w.apply g).2 := by
  cases w with
  | edit e =>
    refine ⟨e.coherent_apply hg, ?_⟩
    simp only [Work.apply, Edit.apply]
    rcases hrun : e.run g with _ | ⟨g', new⟩
    · exact .nothing rfl
    · obtain ⟨hcount, hfresh⟩ := (Edit.change hg hrun).counts
      refine ⟨?_, hcount⟩
      rcases new with _ | v
      · rfl
      · rw [hfresh v rfl]
        rfl
  | prune => exact ⟨hg.prune, .nothing (varCount_prune g)⟩
  | pass moves =>
    have hrecorded := EditPass.recorded_moveAll g moves
    simp only [Work.apply]
    rcases hfinish : ((EditPass.start g).moveAll moves).1.finish with _ | g'
    · exact ⟨hg, .nothing rfl⟩
    · obtain ⟨hlist, hcount⟩ := hrecorded.handed
      exact ⟨(hrecorded.passed.sound hg).finish hfinish, hlist,
        (EditPass.varCount_finish hfinish).trans hcount⟩

theorem workAll_keeps (hg : g.Coherent) (ws : List Work) :
    (workAll g ws).1.Coherent ∧ Hands g (workAll g ws).1 (workAll g ws).2 := by
  induction ws generalizing g with
  | nil => exact ⟨hg, .nothing rfl⟩
  | cons w ws ih =>
    obtain ⟨hcoherent, hhands⟩ := w.apply_keeps hg
    obtain ⟨hcoherent', hhands'⟩ := ih hcoherent
    exact ⟨hcoherent', hhands.append hhands'⟩

theorem Arises.coherent (h : Arises g) : g.Coherent := by
  induction h with
  | initial h => exact h.tidy.coherent
  | canonical _ ih => exact ih.canonical
  | work w _ ih => exact (w.apply_keeps ih).1

theorem Arises.workAll (h : Arises g) (ws : List Work) : Arises (workAll g ws).1 := by
  induction ws generalizing g with
  | nil => exact h
  | cons w ws ih => exact ih (h.work w)

/-- **The table of a graph agrees with its blocks**, however the graph has come about: it says of
every variable where it is bound, or that it is bound nowhere any more, no variable is bound twice,
and all queries answer accordingly. Whatever is done with the graph from there, the variables handed
out have the numbers from the counter on, one after the other, so none of them was handed out before
and none is handed out twice. -/
theorem table_agrees (h : Arises g) : g.Indexed ∧ ∀ ws : List Work,
    (workAll g ws).2 = g.upcoming (workAll g ws).2.length
      ∧ (workAll g ws).1.varCount = g.varCount + (workAll g ws).2.length :=
  ⟨h.coherent.indexed, fun ws => (workAll_keeps h.coherent ws).2⟩

theorem arises_callLoop : Arises callLoop :=
  have hedits : (Graph.workAll .empty (callLoopEdits.map .edit)).1 = callLoop := by cbv
  hedits ▸ (Arises.initial .empty).workAll (callLoopEdits.map .edit)

/-- The table of the loop through the entry, and the numbers that are handed out in any work on
it. -/
theorem table_agrees_callLoop : Arises callLoop ∧ callLoop.Indexed
    ∧ ∀ ws : List Work, (Graph.workAll callLoop ws).2
      = callLoop.upcoming (Graph.workAll callLoop ws).2.length
      ∧ (Graph.workAll callLoop ws).1.varCount
        = callLoop.varCount + (Graph.workAll callLoop ws).2.length :=
  ⟨arises_callLoop, table_agrees arises_callLoop⟩

end Graph

end Interpose
