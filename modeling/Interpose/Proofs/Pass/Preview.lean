import Mathlib.Data.Prod.Basic
import Mathlib.Data.List.Nodup
import Interpose.Proofs.Pass.Result

/-!
# What a pass shows is what it makes

While a pass goes on, the statement of a variable may be in five places: staged at the visited
statement, written, waiting behind the visited one, still ahead, or nowhere because it was deleted.
`EditPass.get?` looks there one after the other. What `finish` will put together is the same at
every moment, except that operands are redirected.

Both are compared with what the pass would leave behind if it stopped now. A statement is in at most
one of the places, since no variable is claimed twice; so it is enough that whatever is shown is
there, and that of what is there something is shown. That nothing is found for a deleted variable in
a later place needs the events: what is in the list of deleted variables is exactly what they leave
nothing of.
-/

set_option autoImplicit false

namespace Interpose

namespace EditPass

variable {g g' : Graph} {p p' : EditPass} {e : Event} {es : List Event} {v w : Variable}
  {s t : Statement}

/-! ## What is deleted -/

theorem mem_statements_iff_block? {entry : Variable × Statement} :
    entry ∈ g.statements ↔ ∃ b block, g.block? b = some block ∧ entry ∈ block.body := by
  rw [← Prod.mk.eta (p := entry), Graph.mem_statements]
  simp only [List.mem_iff_getElem?]
  constructor
  · rintro ⟨b, block, i, hb, hi⟩
    exact ⟨b, block, hb, i, hi⟩
  · rintro ⟨b, block, hb, i, hi⟩
    exact ⟨b, block, i, hb, hi⟩

/-- Moving on deletes nothing. -/
theorem deleted_advance (p : EditPass) : p.advance.deleted = p.deleted := by
  have hseek : ∀ q : EditPass, q.seek.deleted = q.deleted := by
    intro q
    induction q using seek.induct with
    | case1 q hlt v s hnext => rw [EditPass.seek, dif_pos hlt, hnext]
    | case2 q hlt hnext ih =>
      rw [EditPass.seek, dif_pos hlt, hnext]
      exact ih
    | case3 q hlt => rw [EditPass.seek, dif_neg hlt]
  rw [EditPass.advance, hseek]
  rcases hc : p.current with _ | v <;> simp [EditPass.flush, hc, write]

/-- The pass keeps a list of exactly those statements of its graph of which nothing is left. -/
theorem Recorded.mem_deleted_iff (h : Recorded g p es) (hg : g.Coherent) :
    v ∈ p.deleted ↔ ∃ s, (v, s) ∈ g.statements ∧ kept es v s = none := by
  induction h with
  | start => simp [EditPass.start, kept]
  | @step p p' es e hrecorded hstep ih =>
    -- only a deletion and a replacement touch the list and what is left of the statement
    have hsame : p'.deleted = p.deleted → (∀ old, e.keep v old = old) →
        (v ∈ p'.deleted ↔ ∃ s, (v, s) ∈ g.statements ∧ kept (es ++ [e]) v s = none) := by
      intro hdeleted hkeep
      simp only [hdeleted, ih, kept_concat, hkeep]
    cases hstep with
    | advance =>
      exact hsame p.deleted_advance fun _ => rfl
    | before hinsert =>
      obtain ⟨-, rfl, -⟩ := insertBefore_eq_ok.1 hinsert
      exact hsame rfl fun _ => rfl
    | after hinsert =>
      obtain ⟨-, rfl, -⟩ := insertAfter_eq_ok.1 hinsert
      exact hsame rfl fun _ => rfl
    | substituted hsubstitute =>
      obtain ⟨-, -, rfl⟩ := substitute_eq_ok.1 hsubstitute
      exact hsame rfl fun _ => rfl
    | @replaced _ w s hreplace =>
      obtain ⟨-, rfl⟩ := replace_eq_ok.1 hreplace
      simp only [List.mem_filter, ih, kept_concat, Event.keep]
      by_cases hwv : w = v
      · simp [hwv]
      · have hvw : v ≠ w := fun heq => hwv heq.symm
        simp [hwv, hvw]
    | @deleted _ w old hdelete =>
      obtain ⟨hcurrent, -, rfl⟩ := delete_eq_ok.1 hdelete
      simp only [List.mem_cons, ih, kept_concat, Event.keep]
      by_cases hwv : w = v
      · subst hwv
        obtain ⟨block, seen, s, hb, hseen, -, -⟩ := ((hrecorded.tracks hg).visiting hcurrent).here
        have hmem : (w, s) ∈ p.visited p.block block.body :=
          hseen ▸ List.mem_append_right _ List.mem_cons_self
        have hstatement : (w, s) ∈ g.statements :=
          mem_statements_iff_block?.2 ⟨⟨p.block⟩, block, hb, mem_body_of_mem_visited hmem⟩
        simp only [true_or, if_true, and_true, true_iff]
        exact ⟨s, hstatement⟩
      · have hvw : v ≠ w := fun heq => hwv heq.symm
        simp [hwv, hvw]

/-! ## What the pass would leave behind -/

/-- The graph of a pass has the table of its own blocks at every moment. -/
theorem Recorded.coherent_source (h : Recorded g p es) (hg : g.Coherent) : p.source.Coherent := by
  induction h with
  | start => exact hg
  | step _ hstep ih =>
    cases hstep with
    | advance => rwa [EditPass.advance, source_seek, source_flush]
    | before hinsert =>
      obtain ⟨-, rfl, -⟩ := insertBefore_eq_ok.1 hinsert
      exact ih.pushDeleted
    | after hinsert =>
      obtain ⟨-, rfl, -⟩ := insertAfter_eq_ok.1 hinsert
      exact ih.pushDeleted
    | replaced hreplace =>
      obtain ⟨-, rfl⟩ := replace_eq_ok.1 hreplace
      exact ih
    | deleted hdelete =>
      obtain ⟨-, -, rfl⟩ := delete_eq_ok.1 hdelete
      exact ih
    | substituted hsubstitute =>
      obtain ⟨-, -, rfl⟩ := substitute_eq_ok.1 hsubstitute
      exact ih

/-- Exactly the variables from the counter of the graph to that of the pass were handed out. -/
theorem Recorded.mem_handed_iff (h : Recorded g p es) :
    v ∈ es.filterMap Event.handed? ↔ g.varCount ≤ v.index ∧ v.index < p.varCount := by
  rw [h.handed.1, h.handed.2, List.mem_map]
  constructor
  · rintro ⟨i, hi, rfl⟩
    exact List.mem_range'_1.1 hi
  · intro hv
    exact ⟨v.index, List.mem_range'_1.2 hv, rfl⟩

theorem Tracks.mem_assembled_iff (h : Tracks g p es) (hg : g.Coherent) :
    (v, s) ∈ p.assembled.statements ↔ ∃ entry ∈ g.statements, (v, s) ∈ around es entry := by
  simp only [Graph.statements, h.assembled hg, Array.toList_map, List.flatMap_map, List.mem_flatMap]
  constructor
  · rintro ⟨block, hblock, entry, hentry, haround⟩
    exact ⟨entry, ⟨block, hblock, hentry⟩, haround⟩
  · rintro ⟨entry, ⟨block, hblock, hentry⟩, haround⟩
    exact ⟨block, hblock, entry, hentry, haround⟩

/-- A statement of the graph is left behind as what the events left of it: nothing inserted has its
variable. -/
theorem Recorded.mem_assembled_iff_kept (h : Recorded g p es) (hg : g.Coherent)
    (ht : (v, t) ∈ g.statements) : (v, s) ∈ p.assembled.statements ↔ kept es v t = some s := by
  have hold : v ∉ es.filterMap Event.handed? := by
    rw [h.mem_handed_iff]
    obtain ⟨b, block, hb, hmem⟩ := mem_statements_iff_block?.1 ht
    have hbound :=
      Graph.mem_boundVars_of_block? hb (List.mem_append_right _ (List.mem_map_of_mem hmem))
    exact fun hhanded => absurd (hg.lt_varCount hbound) (Nat.not_lt.2 hhanded.1)
  rw [(h.tracks hg).mem_assembled_iff hg]
  constructor
  · rintro ⟨⟨w, t'⟩, hentry, haround⟩
    rcases mem_around.1 haround with hbefore | ⟨rfl, hkept⟩ | hafter
    · exact absurd (handed_of_inserted (.inl hbefore)) hold
    · -- a variable has one statement
      have hget := (hg.get?_iff v t).2 ht
      rw [(hg.get?_iff v t').2 hentry] at hget
      exact Option.some.inj hget ▸ hkept
    · exact absurd (handed_of_inserted (.inr hafter)) hold
  · exact fun hkept => ⟨(v, t), ht, mem_around.2 (.inr (.inl ⟨rfl, hkept⟩))⟩

/-- What was inserted is left behind. -/
theorem Recorded.exists_mem_assembled (h : Recorded g p es) (hg : g.Coherent)
    (hv : v ∈ es.filterMap Event.handed?) : ∃ s, (v, s) ∈ p.assembled.statements := by
  obtain ⟨e, he, w, s, hat, hinserted⟩ := exists_inserted hv
  obtain ⟨b, block, t, hb, hmem⟩ := (h.tracks hg).home he hat
  refine ⟨s, ((h.tracks hg).mem_assembled_iff hg).2
    ⟨(w, t), mem_statements_iff_block?.2 ⟨b, block, hb, hmem⟩, ?_⟩⟩
  exact mem_around.2 (hinserted.elim .inl fun hafter => .inr (.inr hafter))

/-- What is left behind binds no variable twice. -/
theorem Sound.nodup_assembled (h : p.Sound) : p.assembled.keys.Nodup := by
  have hnodup : (p.assembled.blocks.toList.flatMap Block.boundVars).Nodup :=
    h.flush.separate.nodup_flatMap fun i b hb => h.boundVars_assembled (by simpa using hb)
  refine hnodup.sublist ?_
  rw [Graph.keys, Graph.statements, List.map_flatMap]
  exact List.Sublist.flatMap_right _ fun b _ => List.sublist_append_right _ _

theorem Sound.assembled_unique (h : p.Sound) (hs : (v, s) ∈ p.assembled.statements)
    (ht : (v, t) ∈ p.assembled.statements) : s = t := by
  have hpair := List.inj_on_of_nodup_map h.nodup_assembled hs ht rfl
  exact congrArg Prod.snd hpair

/-! ## In which place it is -/

theorem isAhead_statement {i k : Nat} :
    p.isAhead (.statement ⟨i⟩ k) = true ↔ p.block < i ∨ (p.block = i ∧ p.next ≤ k) := by
  simp [isAhead]

/-- The statements of a block that are still to come are those whose sites are ahead. -/
theorem mem_unvisited_iff {i : Nat} {body : List (Variable × Statement)}
    {entry : Variable × Statement} :
    entry ∈ p.unvisited i body
      ↔ ∃ k, body[k]? = some entry ∧ p.isAhead (.statement ⟨i⟩ k) = true := by
  simp only [isAhead_statement, unvisited]
  by_cases hlt : i < p.block
  · rw [if_pos hlt]
    refine ⟨fun hmem => absurd hmem List.not_mem_nil, ?_⟩
    rintro ⟨k, -, hk⟩
    omega
  rw [if_neg hlt]
  by_cases heq : i = p.block
  · subst heq
    rw [if_pos rfl, List.mem_iff_getElem?]
    constructor
    · rintro ⟨j, hj⟩
      rw [List.getElem?_drop] at hj
      exact ⟨p.next + j, hj, .inr ⟨rfl, Nat.le_add_right _ _⟩⟩
    · rintro ⟨k, hk, hahead⟩
      have hle : p.next ≤ k := by omega
      exact ⟨k - p.next, by rw [List.getElem?_drop, Nat.add_sub_cancel' hle]; exact hk⟩
  · rw [if_neg heq, List.drop_zero, List.mem_iff_getElem?]
    have hbehind : p.block < i := by omega
    exact exists_congr fun k => (and_iff_left (.inl hbehind)).symm

/-- The statements of the graph that a pass leaves behind are written by then, or still to come. -/
theorem Tracks.mem_assembled_iff_flush (h : Tracks g p es) {entry : Variable × Statement} :
    entry ∈ p.assembled.statements ↔ (∃ i, entry ∈ p.flush.out.getD i [])
      ∨ ∃ i block, p.source.blocks[i]? = some block ∧ entry ∈ p.unvisited i block.body := by
  have hunvisited : p.flush.unvisited = p.unvisited := by
    rcases hc : p.current with _ | c
    · rw [EditPass.flush, hc]
    · simp only [EditPass.flush, hc]
      rfl
  have hblock : ∀ b, p.assembled.block? b = (p.source.blocks[b.index]?).map fun block =>
      { block with body := p.flush.out.getD b.index [] ++ p.unvisited b.index block.body } := by
    intro b
    simp only [Graph.block?, EditPass.assembled, Array.getElem?_mapIdx, source_flush, hunvisited]
  rw [mem_statements_iff_block?]
  simp only [hblock, Option.map_eq_some_iff]
  constructor
  · rintro ⟨b, _, ⟨block, hb, rfl⟩, hentry⟩
    rcases List.mem_append.1 hentry with hout | hahead
    · exact .inl ⟨b.index, hout⟩
    · exact .inr ⟨b.index, block, hb, hahead⟩
  · rintro (⟨i, hout⟩ | ⟨i, block, hb, hahead⟩)
    · -- there is an output for blocks only
      have hlt : i < p.source.blocks.size := by
        rw [h.blocks, ← h.flush.1.size_out]
        by_contra hle
        rw [Array.getD_eq_getD_getElem?, Array.getElem?_eq_none (Nat.le_of_not_lt hle)] at hout
        cases hout
      exact ⟨⟨i⟩, _, ⟨_, Array.getElem?_eq_getElem hlt, rfl⟩, List.mem_append_left _ hout⟩
    · exact ⟨⟨i⟩, _, ⟨block, hb, rfl⟩, List.mem_append_right _ hahead⟩

/-- **Where a statement is**: written, staged, waiting, or ahead. -/
theorem Tracks.mem_assembled_iff_place (h : Tracks g p es) : (v, s) ∈ p.assembled.statements
    ↔ (∃ i, (v, s) ∈ p.out.getD i []) ∨ (p.current = some v ∧ p.staged = some s) ∨ (v, s) ∈ p.after
      ∨ ∃ i block, p.source.blocks[i]? = some block ∧ (v, s) ∈ p.unvisited i block.body := by
  rw [h.mem_assembled_iff_flush]
  rcases h.place with hidle | ⟨c, hc⟩
  · have hflush : p.flush = p := by rw [EditPass.flush, hidle.current]
    rw [hflush, hidle.current, hidle.after]
    simp
  · obtain ⟨block, -, -, hb, -, -, -⟩ := hc.here
    have hlt : p.block < p.out.size := by
      rw [h.size_out]
      exact (Array.getElem?_eq_some_iff.1 hb).1
    have hflush : p.flush.out
        = (p.write ((p.staged.toList.map fun s => (c, s)) ++ p.after)).out := by
      rw [EditPass.flush, hc.current]
    have hstaged : (v, s) ∈ (p.staged.toList.map fun s => (c, s))
        ↔ p.current = some v ∧ p.staged = some s := by
      rw [hc.current, List.mem_map]
      constructor
      · rintro ⟨t, ht, heq⟩
        cases heq
        exact ⟨rfl, Option.mem_toList.1 ht⟩
      · rintro ⟨heq, hs⟩
        exact ⟨s, Option.mem_toList.2 hs, by rw [Option.some.inj heq]⟩
    have hwritten : (∃ i, (v, s) ∈ p.flush.out.getD i []) ↔ (∃ i, (v, s) ∈ p.out.getD i [])
        ∨ (p.current = some v ∧ p.staged = some s) ∨ (v, s) ∈ p.after := by
      rw [hflush, ← hstaged, ← List.mem_append]
      constructor
      · rintro ⟨i, hi⟩
        by_cases heq : i = p.block
        · rw [heq, getD_write p _ hlt] at hi
          exact (List.mem_append.1 hi).imp (⟨p.block, ·⟩) id
        · rw [getD_write_of_ne p _ heq] at hi
          exact .inl ⟨i, hi⟩
      · rintro (⟨i, hi⟩ | hhere)
        · refine ⟨i, ?_⟩
          by_cases heq : i = p.block
          · rw [heq] at hi
            rw [heq, getD_write p _ hlt]
            exact List.mem_append_left _ hi
          · rwa [getD_write_of_ne p _ heq]
        · exact ⟨p.block, by rw [getD_write p _ hlt]; exact List.mem_append_right _ hhere⟩
    rw [hwritten, or_assoc, or_assoc]

/-! ## What is shown -/

theorem mem_of_lookup {entries : List (Variable × Statement)} (h : entries.lookup v = some s) :
    (v, s) ∈ entries := by
  obtain ⟨front, back, rfl, -⟩ := List.lookup_eq_some_iff.1 h
  exact List.mem_append_right _ List.mem_cons_self

theorem lookup_ne_none {entries : List (Variable × Statement)} (h : (v, s) ∈ entries) :
    entries.lookup v ≠ none := by
  intro hnone
  have hne := List.lookup_eq_none_iff.1 hnone _ h
  simp at hne

/-- Of what is written or waits, something is found exactly for the variables that are there. -/
theorem written_cases (p : EditPass) (v : Variable) :
    (∃ s, (p.out.toList.findSome? (·.lookup v) <|> p.after.lookup v) = some s
        ∧ ((∃ i, (v, s) ∈ p.out.getD i []) ∨ (v, s) ∈ p.after))
      ∨ ((p.out.toList.findSome? (·.lookup v) <|> p.after.lookup v) = none
        ∧ ∀ s, (∀ i, (v, s) ∉ p.out.getD i []) ∧ (v, s) ∉ p.after) := by
  rcases hout : p.out.toList.findSome? (·.lookup v) with _ | s
  · have hnone : ∀ s i, (v, s) ∉ p.out.getD i [] := by
      intro s i hmem
      rw [Array.getD_eq_getD_getElem?] at hmem
      rcases hi : p.out[i]? with _ | entries
      · rw [hi] at hmem
        cases hmem
      · rw [hi] at hmem
        refine lookup_ne_none hmem (List.findSome?_eq_none_iff.1 hout entries ?_)
        exact Array.mem_toList_iff.2 (Array.mem_of_getElem? hi)
    rcases hafter : p.after.lookup v with _ | s
    · exact .inr ⟨by rw [hout]; rfl, fun s => ⟨hnone s, fun hmem => lookup_ne_none hmem hafter⟩⟩
    · exact .inl ⟨s, by rw [hout]; rfl, .inr (mem_of_lookup hafter)⟩
  · obtain ⟨entries, hentries, hfound⟩ := List.exists_of_findSome?_eq_some hout
    obtain ⟨i, hi⟩ := List.mem_iff_getElem?.1 hentries
    refine .inl ⟨s, by rw [hout]; rfl, .inl ⟨i, ?_⟩⟩
    rw [Array.getElem?_toList] at hi
    rw [Array.getD_eq_getD_getElem?, hi]
    exact mem_of_lookup hfound

/-- What is ahead is shown with its statement, and other variables are not ahead. -/
theorem Recorded.ahead_iff (h : Recorded g p es) (hg : g.Coherent) :
    (match p.source.site? v with
      | some site => if p.isAhead site then p.source.get? v else none
      | none => none) = some s
    ↔ ∃ i block, p.source.blocks[i]? = some block ∧ (v, s) ∈ p.unvisited i block.body := by
  have hsource := h.coherent_source hg
  simp only [mem_unvisited_iff]
  constructor
  · intro hget
    rcases hsite : p.source.site? v with _ | site
    · rw [hsite] at hget
      cases hget
    rw [hsite] at hget
    dsimp only at hget
    split at hget
    · next hahead =>
      cases site with
      | param b k => cases hahead
      | deleted => cases hahead
      | statement b k =>
        obtain ⟨block, t, hb, hk⟩ := hsource.statement_of_site hsite
        have ht := (hsource.get?_iff v t).2 (Graph.mem_statements.2 ⟨b, block, k, hb, hk⟩)
        obtain rfl : t = s := Option.some.inj (ht.symm.trans hget)
        exact ⟨b.index, block, hb, k, hk, hahead⟩
    · cases hget
  · rintro ⟨i, block, hb, k, hk, hahead⟩
    have hsite := (hsource.site_statement_iff v ⟨i⟩ k).2 ⟨block, s, hb, hk⟩
    rw [hsite]
    dsimp only
    rw [if_pos hahead]
    exact (hsource.get?_iff v s).2 (Graph.mem_statements.2 ⟨⟨i⟩, block, k, hb, hk⟩)

/-- **What a pass shows is what it would leave behind.** -/
theorem Recorded.get?_iff (h : Recorded g p es) (hg : g.Coherent) :
    p.get? v = some s ↔ (v, s) ∈ p.assembled.statements := by
  have ht := h.tracks hg
  have hplace : ∀ s, _ := fun s => ht.mem_assembled_iff_place (v := v) (s := s)
  by_cases hcurrent : p.current = some v
  · -- the statement that the pass stands at: what is left of it is staged
    have hget : p.get? v = p.staged := by rw [EditPass.get?, if_pos hcurrent]
    obtain ⟨block, seen, t, hb, hseen, -, hstaged⟩ := (ht.visiting hcurrent).here
    have hmem : (v, t) ∈ p.visited p.block block.body :=
      hseen ▸ List.mem_append_right _ List.mem_cons_self
    rw [hget, hstaged, h.mem_assembled_iff_kept hg
      (mem_statements_iff_block?.2 ⟨⟨p.block⟩, block, hb, mem_body_of_mem_visited hmem⟩)]
  -- what was deleted is shown nowhere, and the events leave nothing of it
  by_cases hdeleted : v ∈ p.deleted
  · obtain ⟨t, hmem, hnone⟩ := (h.mem_deleted_iff hg).1 hdeleted
    have hget : p.get? v = none := by
      rw [EditPass.get?, if_neg hcurrent, if_pos (List.contains_iff_mem.2 hdeleted)]
    rw [hget, h.mem_assembled_iff_kept hg hmem, hnone]
  have hkept : ¬p.deleted.contains v = true := fun hmem => hdeleted (List.contains_iff_mem.1 hmem)
  -- otherwise what is written or waits comes first, and what is ahead after it
  rcases p.written_cases v with ⟨t, hfound, hwritten⟩ | ⟨hnone, hunwritten⟩
  · have hmem : (v, t) ∈ p.assembled.statements :=
      (hplace t).2 (hwritten.imp_right fun hafter => .inr (.inl hafter))
    have hget : p.get? v = some t := by
      unfold EditPass.get?
      rw [if_neg hcurrent, if_neg hkept, hfound]
    rw [hget]
    refine ⟨fun heq => Option.some.inj heq ▸ hmem, fun hs => ?_⟩
    rw [(h.passed.sound hg).assembled_unique hmem hs]
  · unfold EditPass.get?
    rw [if_neg hcurrent, if_neg hkept, hnone, hplace s]
    refine (h.ahead_iff hg).trans ⟨fun hahead => .inr (.inr (.inr hahead)), ?_⟩
    rintro (⟨i, hout⟩ | ⟨heq, -⟩ | hafter | hahead)
    · exact absurd hout ((hunwritten s).1 i)
    · exact absurd heq hcurrent
    · exact absurd hafter (hunwritten s).2
    · exact hahead

/-! ## What is made of it -/

/-- The result has the statements that the pass leaves behind, with their operands redirected. -/
theorem statements_finish (hfinish : p.finish = .ok g') :
    g'.statements = p.assembled.statements.map fun (v, s) => (v, s.map (redirect p.redirects)) := by
  obtain ⟨blocks, hblocks, rfl, -, -⟩ := EditPass.finish_eq_ok.1 hfinish
  have hbody : ∀ {b b' : Block}, redirectBlock p.redirects b = .ok b' →
      b'.body = b.body.map fun (v, s) => (v, s.map (redirect p.redirects)) := by
    intro b b' hredirect
    obtain ⟨branches, -, heq⟩ := bind_eq_ok.1 hredirect
    cases heq
    rfl
  have hlists := mapM_eq_ok_iff_forall₂.1 hblocks
  simp only [Graph.statements, Graph.renumbered]
  clear hblocks hfinish
  generalize p.assembled.blocks.toList = before at hlists
  induction hlists with
  | nil => rfl
  | cons hb _ ih => rw [List.flatMap_cons, List.flatMap_cons, List.map_append, hbody hb, ih]

/-- **A pass previews its result.** -/
theorem Recorded.get?_finish (h : Recorded g p es) (hg : g.Coherent) (hfinish : p.finish = .ok g')
    (v : Variable) :
    g'.get? v = (p.get? v).map (Statement.map (redirect p.redirects)) := by
  have hg' := (h.passed.sound hg).finish hfinish
  refine Option.ext fun t => ?_
  rw [hg'.get?_iff, statements_finish hfinish, Option.map_eq_some_iff, List.mem_map]
  simp only [h.get?_iff hg]
  constructor
  · rintro ⟨⟨w, s⟩, hmem, heq⟩
    cases heq
    exact ⟨s, hmem, rfl⟩
  · rintro ⟨s, hmem, rfl⟩
    exact ⟨(v, s), hmem, rfl⟩

/-- A variable with a statement had one in the graph, or was handed out. -/
theorem Recorded.origin (h : Recorded g p es) (hg : g.Coherent)
    (hs : (v, s) ∈ p.assembled.statements) :
    (∃ b i, g.site? v = some (.statement b i)) ∨ (g.varCount ≤ v.index ∧ v.index < p.varCount) := by
  obtain ⟨⟨w, t⟩, hentry, haround⟩ := ((h.tracks hg).mem_assembled_iff hg).1 hs
  rcases mem_around.1 haround with hbefore | ⟨rfl, -⟩ | hafter
  · exact .inr (h.mem_handed_iff.1 (handed_of_inserted (.inl hbefore)))
  · obtain ⟨b, block, i, hb, hi⟩ := Graph.mem_statements.1 hentry
    exact .inl ⟨b, i, (hg.site_statement_iff v b i).2 ⟨block, t, hb, hi⟩⟩
  · exact .inr (h.mem_handed_iff.1 (handed_of_inserted (.inr hafter)))

/-- Something is left behind for what was handed out, and for a statement of which the events leave
something. -/
theorem Recorded.hidden_of_forall_notMem (h : Recorded g p es) (hg : g.Coherent)
    (hnothing : ∀ s, (v, s) ∉ p.assembled.statements) :
    p.varCount ≤ v.index ∨ (∃ b i, g.site? v = some (.param b i))
      ∨ g.site? v = some .deleted ∨ ∃ s, (v, s) ∈ g.statements ∧ kept es v s = none := by
  by_cases hout : p.varCount ≤ v.index
  · exact .inl hout
  by_cases hnew : g.varCount ≤ v.index
  · obtain ⟨s, hs⟩ := h.exists_mem_assembled hg (h.mem_handed_iff.2 ⟨hnew, Nat.lt_of_not_le hout⟩)
    exact absurd hs (hnothing s)
  obtain ⟨site, hv⟩ : ∃ site, g.site? v = some site :=
    ⟨_, Array.getElem?_eq_getElem (Nat.lt_of_not_le hnew)⟩
  rcases site with ⟨b, i⟩ | ⟨b, i⟩ | _
  · exact .inr (.inl ⟨b, i, hv⟩)
  · obtain ⟨block, t, hb, hi⟩ := hg.statement_of_site hv
    have ht := Graph.mem_statements.2 ⟨b, block, i, hb, hi⟩
    refine .inr (.inr (.inr ⟨t, ht, Option.eq_none_iff_forall_not_mem.2 fun s hs => ?_⟩))
    exact hnothing s ((h.mem_assembled_iff_kept hg ht).2 hs)
  · exact .inr (.inr (.inl hv))

/-- Nothing is shown for exactly the numbers that were not handed out, the parameters and the
deleted variables. -/
theorem Recorded.get?_eq_none_iff (h : Recorded g p es) (hg : g.Coherent) (v : Variable) :
    p.get? v = none
      ↔ p.varCount ≤ v.index ∨ (∃ b i, g.site? v = some (.param b i)) ∨ g.site? v = some .deleted
      ∨ ∃ s, (v, s) ∈ g.statements ∧ kept es v s = none := by
  have hcount : g.varCount ≤ p.varCount := by
    rw [h.handed.2]
    exact Nat.le_add_right _ _
  have hlt : ∀ {site}, g.site? v = some site → v.index < g.varCount :=
    fun hv => (Array.getElem?_eq_some_iff.1 hv).1
  constructor
  · intro hnone
    refine h.hidden_of_forall_notMem hg fun s hs => ?_
    rw [(h.get?_iff hg).2 hs] at hnone
    cases hnone
  · intro hcases
    refine Option.eq_none_iff_forall_not_mem.2 fun s hs => ?_
    have hmem := (h.get?_iff hg).1 hs
    rcases hcases with hout | ⟨c, k, hparam⟩ | hdeleted | ⟨t, ht, hnone⟩
    · rcases h.origin hg hmem with ⟨b, i, hv⟩ | ⟨-, hhanded⟩
      · exact absurd (hlt hv) (Nat.not_lt.2 (Nat.le_trans hcount hout))
      · exact absurd hhanded (Nat.not_lt.2 hout)
    · rcases h.origin hg hmem with ⟨b, i, hv⟩ | ⟨hnew, -⟩
      · cases hv.symm.trans hparam
      · exact absurd (hlt hparam) (Nat.not_lt.2 hnew)
    · rcases h.origin hg hmem with ⟨b, i, hv⟩ | ⟨hnew, -⟩
      · cases hv.symm.trans hdeleted
      · exact absurd (hlt hdeleted) (Nat.not_lt.2 hnew)
    · cases hnone.symm.trans ((h.mem_assembled_iff_kept hg ht).1 hmem)

/-- **What a pass shows at any moment is what it makes.** Let any calls be made of a pass over a
graph. If the pass has a result now, the statement of each variable in it is the one that the pass
shows, with its operands redirected: each becomes the end of its chain of substitutions, or a
variable of a cycle that the chain comes to. So the result has no statement exactly where the pass
shows none. These are the numbers that were not handed out, the parameters, the variables that the
graph had deleted, and those of whose statements the calls have left nothing. -/
theorem finish_previewed (h : Graph.Arises g) {ms : List Move}
    (hmoves : (start g).moveAll ms = (p, es)) (v : Variable) :
    (∀ g', p.finish = .ok g' →
        g'.get? v = (p.get? v).map (Statement.map (redirect p.redirects))
        ∧ (g'.get? v = none ↔ p.get? v = none))
      ∧ (∀ op, EndsAt (redirectOf es) op (redirect p.redirects op)
        ∨ ∃ u w, op = .var u ∧ redirect p.redirects op = .var w ∧ Leads (redirectOf es) u w
          ∧ OnCycle (redirectOf es) w)
      ∧ (p.get? v = none ↔ p.varCount ≤ v.index ∨ (∃ b i, g.site? v = some (.param b i))
        ∨ g.site? v = some .deleted ∨ ∃ s, (v, s) ∈ g.statements ∧ kept es v s = none) := by
  have hrecorded := recorded_moveAll g ms
  rw [hmoves] at hrecorded
  have hnext : p.redirects.get? = redirectOf es := funext (hrecorded.tracks h.coherent).redirects
  refine ⟨fun g' hfinish => ?_, fun op => hnext ▸ redirect_cases p.redirects op,
    hrecorded.get?_eq_none_iff h.coherent v⟩
  have hget := hrecorded.get?_finish h.coherent hfinish v
  exact ⟨hget, by rw [hget, Option.map_eq_none_iff]⟩

/-- Calls of a pass over the loop through the entry that end in the middle: the call is deleted and
comes back as a copy of the parameter, behind which another one waits. -/
def restoredMoves : List Move := [
  .advance,
  .delete ⟨1⟩,
  .replace ⟨1⟩ (.plain (.operand (.var ⟨0⟩))),
  .insertAfter ⟨1⟩ (.plain (.operand (.var ⟨1⟩))),
  .substitute ⟨1⟩ (.var ⟨0⟩)]

/-- The statement that waits reads the parameter in the result. -/
theorem finish_previewed_callLoop : Graph.Arises .callLoop ∧ ∃ p es g',
    (start .callLoop).moveAll restoredMoves = (p, es) ∧ p.finish = .ok g'
      ∧ p.get? ⟨2⟩ = some (.plain (.operand (.var ⟨1⟩)))
      ∧ g'.get? ⟨2⟩ = (p.get? ⟨2⟩).map (Statement.map (redirect p.redirects)) := by
  obtain ⟨p, es, hmoves, g', hfinish, hshown⟩ : ∃ p es,
    (start .callLoop).moveAll restoredMoves = (p, es)
      ∧ ∃ g', p.finish = .ok g' ∧ p.get? ⟨2⟩ = some (.plain (.operand (.var ⟨1⟩))) :=
    ⟨_, _, by cbv, _, by cbv, rfl⟩
  exact ⟨Graph.arises_callLoop, p, es, g', hmoves, hfinish, hshown,
    ((finish_previewed Graph.arises_callLoop hmoves ⟨2⟩).1 g' hfinish).1⟩

end EditPass

end Interpose
