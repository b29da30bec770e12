import Interpose.Proofs.Graph.Arising

/-!
# A removal undoes an insertion

An insertion numbers the rest of a body again, and so does a removal. That the two cancel is not
read off these renumberings. The removal leaves the old blocks, and the table of a coherent graph is
settled by its blocks and its counter, so it is the old table with one entry behind it, for the
variable that was handed out and is deleted.

What the removal needs is that nothing reads the new variable. An insertion does not check this: it
holds because the variable was not bound before, and a tidy graph reads nothing that is not bound.
-/

set_option autoImplicit false

namespace Interpose

/-- An operand of a statement, an argument of a branch or a condition of the block is the
variable. -/
def Block.ReadsIn (block : Block) (v : Variable) : Prop :=
  (∃ e ∈ block.body, Operand.var v ∈ e.2.operation.operands)
    ∨ ∃ br ∈ block.branches, Operand.var v ∈ br.args ∨ br.condition = some v

theorem mem_filterMap_var {ops : List Operand} {v : Variable} :
    v ∈ ops.filterMap Operand.var? ↔ .var v ∈ ops := by
  refine List.mem_filterMap.trans ⟨?_, fun h => ⟨_, h, rfl⟩⟩
  rintro ⟨op, hop, hv⟩
  cases op with
  | var w => exact Option.some.inj hv ▸ hop
  | const c => cases hv
  | global name => cases hv

/-- The list of what a block reads has every place where it reads. -/
theorem Block.mem_uses_iff_readsIn {block : Block} {v : Variable} :
    v ∈ block.uses ↔ block.ReadsIn v := by
  have hstatement : ∀ e : Variable × Statement, v ∈ e.2.uses ↔ .var v ∈ e.2.operation.operands :=
    fun _ => mem_filterMap_var
  have hbranch : ∀ br : Branch, v ∈ br.uses ↔ .var v ∈ br.args ∨ br.condition = some v := by
    intro br
    rw [Branch.uses, List.mem_append, mem_filterMap_var, Option.mem_toList, or_comm]
  simp only [Block.uses, List.mem_append, List.mem_flatMap, hstatement, hbranch, Block.ReadsIn]

namespace Graph

/-- The insertions, by the place that a caller asks for. -/
inductive Insertion where
  | atEnd (b : BlockId)
  | atStart (b : BlockId)
  | before (v : Variable)
  | after (v : Variable)

/-- The graph with a statement inserted there, and the variable that it binds. -/
def Insertion.run (g : Graph) (s : Statement) : Insertion → Except GraphError (Graph × Variable)
  | .atEnd b => g.pushTo b s
  | .atStart b => g.prependTo b s
  | .before v => g.insertBefore v s
  | .after v => g.insertAfter v s

/-- The place is in a block, behind the statements of `front` and before those of `back`. -/
inductive Insertion.Between (g : Graph) : Insertion → BlockId → List (Variable × Statement) →
    List (Variable × Statement) → Prop
  | atEnd {b : BlockId} {block : Block} :
    g.block? b = some block → Between g (.atEnd b) b block.body []
  | atStart {b : BlockId} {block : Block} :
    g.block? b = some block → Between g (.atStart b) b [] block.body
  | before {b : BlockId} {block : Block} {v : Variable} {t : Statement}
    {front back : List (Variable × Statement)} :
    g.block? b = some block → block.body = front ++ (v, t) :: back →
    Between g (.before v) b front ((v, t) :: back)
  | after {b : BlockId} {block : Block} {v : Variable} {t : Statement}
    {front back : List (Variable × Statement)} :
    g.block? b = some block → block.body = front ++ (v, t) :: back →
    Between g (.after v) b (front ++ [(v, t)]) back

variable {g g' : Graph} {b : BlockId} {block : Block} {front back : List (Variable × Statement)}
  {s : Statement} {n v : Variable}

/-! ## What is inserted -/

/-- The statements before and behind the place are the body of the block. -/
theorem Insertion.Between.body {i : Insertion} (h : i.Between g b front back) :
    ∃ block, g.block? b = some block ∧ block.body = front ++ back := by
  cases h with
  | atEnd hb => exact ⟨_, hb, (List.append_nil _).symm⟩
  | atStart hb => exact ⟨_, hb, rfl⟩
  | before hb hbody => exact ⟨_, hb, hbody⟩
  | after hb hbody => exact ⟨_, hb, by rw [hbody, List.append_assoc, List.singleton_append]⟩

/-- An accepted insertion puts the statement at the position where it was asked for. -/
theorem Insertion.inserted_of_run (hg : g.Coherent) {i : Insertion} (h : i.run g s = .ok (g', n)) :
    ∃ b front back, i.Between g b front back ∧ g.checkStatement b front.length s = .ok ()
      ∧ g' = g.inserted b front.length s ∧ n = g.fresh := by
  cases i with
  | atEnd b =>
    obtain ⟨block, hb, hmade⟩ := pushTo_eq_ok.1 h
    exact ⟨b, block.body, [], .atEnd hb, hmade⟩
  | atStart b =>
    obtain ⟨block, hb, hmade⟩ := prependTo_eq_ok.1 h
    exact ⟨b, [], block.body, .atStart hb, hmade⟩
  | before v =>
    obtain ⟨b, i, hv, hmade⟩ := insertBefore_eq_ok.1 h
    obtain ⟨block, t, hb, hi⟩ := hg.statement_of_site hv
    obtain ⟨front, back, hbody, rfl⟩ := exists_append_cons_of_getElem? hi
    exact ⟨b, front, (v, t) :: back, .before hb hbody, hmade⟩
  | after v =>
    obtain ⟨b, i, hv, hmade⟩ := insertAfter_eq_ok.1 h
    obtain ⟨block, t, hb, hi⟩ := hg.statement_of_site hv
    obtain ⟨front, back, hbody, rfl⟩ := exists_append_cons_of_getElem? hi
    have hlength : (front ++ [(v, t)]).length = front.length + 1 := List.length_append
    exact ⟨b, front ++ [(v, t)], back, .after hb hbody, hlength ▸ hmade⟩

theorem length_le_of_body (hbody : block.body = front ++ back) :
    front.length ≤ block.body.length := by
  rw [hbody, List.length_append]
  exact Nat.le_add_right _ _

/-- The statement behind the first part of a body. -/
theorem getElem?_between (front back : List (Variable × Statement)) (e : Variable × Statement) :
    (front ++ e :: back)[front.length]? = some e := by
  rw [List.getElem?_append_right (Nat.le_refl _), Nat.sub_self]
  rfl

/-- The new body is the old one with one pair between the two parts. -/
theorem block?_inserted_of_body (hb : g.block? b = some block) (hbody : block.body = front ++ back)
    (s : Statement) : (g.inserted b front.length s).block? b
      = some { block with body := front ++ (g.fresh, s) :: back } := by
  rw [block?_inserted, if_pos rfl, hb, Option.map_some, hbody, insertIdx_append]

/-- The new variable is bound by the new statement. -/
theorem Coherent.site?_inserted (h : g.Coherent) (hb : g.block? b = some block)
    (hbody : block.body = front ++ back) (s : Statement) :
    (g.inserted b front.length s).site? g.fresh = some (.statement b front.length) := by
  have hle := length_le_of_body hbody
  exact ((h.inserted hb hle s).site_statement_iff _ _ _).2
    ⟨_, s, block?_inserted_of_body hb hbody s, getElem?_between front back (g.fresh, s)⟩

/-- Nothing reads the new variable: the old blocks read what was bound before, and so does the new
statement. -/
theorem Tidy.isUsed_inserted (h : g.Tidy) (hb : g.block? b = some block)
    (hbody : block.body = front ++ back) (hcheck : g.checkStatement b front.length s = .ok ()) :
    (g.inserted b front.length s).isUsed g.fresh = false := by
  have hold : ∀ c other, g.block? c = some other → g.fresh ∉ other.uses := fun c other hc hread =>
    h.coherent.fresh_notMem_boundVars (h.bound c other hc _ hread)
  have hnew : g.fresh ∉ s.uses := fun hread =>
    h.coherent.fresh_notMem_boundVars (h.mem_boundVars_of_check hcheck hread)
  -- only the block that has grown reads more than before
  refine isUsed_eq_false.2 fun c other hc => ?_
  by_cases hbc : b = c
  · subst hbc
    rw [block?_inserted_of_body hb hbody] at hc
    obtain rfl := Option.some.inj hc
    have hfresh := hold b block hb
    rw [Block.uses, hbody] at hfresh
    rw [Block.uses]
    simp only [List.flatMap_append, List.flatMap_cons, List.mem_append, not_or] at hfresh ⊢
    exact ⟨⟨hfresh.1.1, hnew, hfresh.1.2⟩, hfresh.2⟩
  · rw [block?_inserted, if_neg hbc] at hc
    exact hold c other hc

/-! ## What is removed again -/

/-- What was inserted and is taken out again leaves the old blocks and one more entry of the
table. -/
theorem Coherent.erased_inserted (h : g.Coherent) (hb : g.block? b = some block)
    (hbody : block.body = front ++ back) (s : Statement) :
    (g.inserted b front.length s).erased b front.length g.fresh
      = { g with sites := g.sites.push .deleted } := by
  have hle := length_le_of_body hbody
  have hblocks : ((g.inserted b front.length s).erased b front.length g.fresh).blocks
      = g.blocks := by
    have hsame : ∀ c, ((g.inserted b front.length s).erased b front.length g.fresh).block? c
        = g.block? c := by
      intro c
      rw [block?_erased]
      by_cases hbc : b = c
      · subst hbc
        rw [if_pos rfl, block?_inserted_of_body hb hbody, hb, Option.map_some,
          eraseIdx_append, ← hbody]
      · rw [if_neg hbc, block?_inserted, if_neg hbc]
    exact Array.ext_getElem? fun i => hsame ⟨i⟩
  -- both graphs are coherent and have the same blocks and counters, so the tables are the same
  have hcoherent := (h.inserted hb hle s).erased (h.site?_inserted hb hbody s)
  have hcount : ((g.inserted b front.length s).erased b front.length g.fresh).varCount
      = g.varCount + 1 := by
    simp [varCount, Graph.erased, Graph.inserted]
  have hsites :=
    hcoherent.sites_unique h.pushDeleted hblocks (hcount.trans (Array.size_push _).symm)
  exact Graph.mk.injEq .. ▸ ⟨hsites, hblocks, rfl, rfl⟩

theorem Tidy.delete_inserted (h : g.Tidy) (hb : g.block? b = some block)
    (hbody : block.body = front ++ back) (hcheck : g.checkStatement b front.length s = .ok ()) :
    (g.inserted b front.length s).delete g.fresh
      = .ok ({ g with sites := g.sites.push .deleted }, s) := by
  refine delete_eq_ok.2 ⟨b, front.length, h.coherent.site?_inserted hb hbody s,
    h.isUsed_inserted hb hbody hcheck, (h.coherent.erased_inserted hb hbody s).symm, ?_⟩
  rw [statementAt, block?_inserted_of_body hb hbody, Option.getD_some, getElem?_between]
  rfl

/-- In a coherent graph exactly the statements can be removed whose variable is read nowhere. -/
theorem Coherent.exists_delete_iff (h : g.Coherent) : (∃ g' s, g.delete v = .ok (g', s))
    ↔ (∃ b block s, g.block? b = some block ∧ (v, s) ∈ block.body)
      ∧ ∀ c other, g.block? c = some other → ¬ other.ReadsIn v := by
  have hlive : (∃ b i, g.site? v = some (.statement b i))
      ↔ ∃ b block s, g.block? b = some block ∧ (v, s) ∈ block.body := by
    simp only [h.site_statement_iff, List.mem_iff_getElem?]
    constructor
    · rintro ⟨b, i, block, s, hb, hi⟩
      exact ⟨b, block, s, hb, i, hi⟩
    · rintro ⟨b, block, s, hb, i, hi⟩
      exact ⟨b, i, block, s, hb, hi⟩
  simp only [← Block.mem_uses_iff_readsIn]
  rw [← hlive, ← isUsed_eq_false]
  simp only [delete_eq_ok]
  constructor
  · rintro ⟨_, _, b, i, hv, hunused, -, -⟩
    exact ⟨⟨b, i, hv⟩, hunused⟩
  · rintro ⟨⟨b, i, hv⟩, hunused⟩
    exact ⟨_, _, b, i, hv, hunused, rfl, rfl⟩

/-- **Inserting and then deleting restores the graph, and deleting is possible exactly where nothing
reads.** Take any graph that direct edits make of a new or a lowered one. An accepted insertion puts
the statement where it was asked for, between the parts of the old body, changes no other block, and
the variable it hands out is bound by the statement. Deleting that variable succeeds, hands the
statement back, and leaves the graph as it was, table included, but for one more entry of a deleted
variable. A variable can be deleted exactly if a statement binds it and no statement, argument or
condition of any block is it. -/
theorem deleting_undoes_inserting {g₀ : Graph} (h : Initial g₀) (es : List Edit) :
    (∀ (i : Insertion) (s : Statement) (g' : Graph) (n : Variable),
      i.run (editAll g₀ es) s = .ok (g', n) →
      ∃ b block front back, i.Between (editAll g₀ es) b front back
        ∧ (editAll g₀ es).block? b = some block ∧ block.body = front ++ back
        ∧ g'.block? b = some { block with body := front ++ (n, s) :: back }
        ∧ (∀ c, c ≠ b → g'.block? c = (editAll g₀ es).block? c)
        ∧ g'.get? n = some s
        ∧ g'.delete n
          = .ok ({ editAll g₀ es with sites := (editAll g₀ es).sites.push .deleted }, s))
    ∧ ∀ v, (∃ g' s, (editAll g₀ es).delete v = .ok (g', s))
      ↔ (∃ b block s, (editAll g₀ es).block? b = some block ∧ (v, s) ∈ block.body)
        ∧ ∀ c other, (editAll g₀ es).block? c = some other → ¬ other.ReadsIn v := by
  have htidy := h.tidy.editAll es
  generalize editAll g₀ es = g at htidy
  refine ⟨fun i s g' n hrun => ?_, fun v => htidy.coherent.exists_delete_iff⟩
  obtain ⟨b, front, back, hbetween, hcheck, rfl, rfl⟩ := i.inserted_of_run htidy.coherent hrun
  obtain ⟨block, hb, hbody⟩ := hbetween.body
  have hnew := block?_inserted_of_body hb hbody s
  have hle := length_le_of_body hbody
  refine ⟨b, block, front, back, hbetween, hb, hbody, hnew, fun c hc => ?_, ?_,
    htidy.delete_inserted hb hbody hcheck⟩
  · rw [block?_inserted, if_neg fun hbc => hc hbc.symm]
  · exact ((htidy.coherent.inserted hb hle s).get?_iff _ _).2
      (mem_statements.2 ⟨b, _, front.length, hnew, getElem?_between front back (g.fresh, s)⟩)

/-- A statement before the call of the loop, which reads the loop's parameter, and its removal. -/
theorem deleting_undoes_inserting_callLoop :
    Initial .empty ∧ ∃ g' n,
      (Insertion.before ⟨1⟩).run (editAll .empty callLoopEdits) (.plain (.operand (.var ⟨0⟩)))
        = .ok (g', n)
      ∧ ∃ g'', g'.delete n = .ok (g'', .plain (.operand (.var ⟨0⟩)))
        ∧ g''.blocks = (editAll .empty callLoopEdits).blocks
        ∧ g''.varCount = (editAll .empty callLoopEdits).varCount + 1 := by
  have hundone := deleting_undoes_inserting .empty callLoopEdits
  rcases hrun : (Insertion.before ⟨1⟩).run (editAll .empty callLoopEdits)
    (.plain (.operand (.var ⟨0⟩)))
    with e | ⟨g', n⟩
  · have hok : ((Insertion.before ⟨1⟩).run (editAll .empty callLoopEdits)
        (.plain (.operand (.var ⟨0⟩)))).isOk = true := by cbv
    rw [hrun] at hok
    cases hok
  · obtain ⟨_, _, _, _, -, -, -, -, -, -, hdelete⟩ := hundone.1 _ _ _ _ hrun
    exact ⟨.empty, g', n, rfl, _, hdelete, rfl, Array.size_push _⟩

end Graph

end Interpose
