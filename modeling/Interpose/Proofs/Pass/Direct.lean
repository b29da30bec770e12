import Mathlib.Order.Nat
import Interpose.Proofs.Pass.Result

/-!
# A pass and edits of the graph itself

What a pass inserts and replaces can be inserted and replaced in the graph as well, by its own edits
and in the same order. The pass checks what a new statement reads against the place where it stands;
the edits check it against positions in bodies that grow meanwhile. Both come to the same: the edits
are accepted, hand out the same variables and lead to the graph that `finish` makes.

There is one difference. A variable that the graph has deleted may be read in a pass, because its
uses may still be redirected, and only `finish` finds out; an edit of the graph refuses this at
once. Where `finish` gives a graph, such a statement can only have been put in the place of one and
have been replaced again later, and it makes no difference that the edit was refused.
-/

set_option autoImplicit false

namespace Interpose

namespace EditPass

variable {g g' h h' : Graph} {p p' : EditPass} {e : Event} {es : List Event} {u v w : Variable}
  {s : Statement}

/-! ## The edits for the events -/

/-- The variable of the last statement that was inserted after that of `v`, or `v` if there is
none. -/
def lastAfter (es : List Event) (v : Variable) : Variable :=
  ((afters es v).getLast?.map Prod.fst).getD v

namespace Event

/-- The edit of the graph that does the same as an event after others. -/
def edit? (earlier : List Event) : Event → Option Graph.Edit
  | .before v _ s => some (.insertBefore v s)
  | .after v _ s => some (.insertAfter (lastAfter earlier v) s)
  | .replaced v s => some (.set v s)
  | _ => none

/-- The statement that comes in. -/
def statement? : Event → Option Statement
  | .before _ _ s | .after _ _ s | .replaced _ s => some s
  | _ => none

/-- Nothing is deleted or substituted. -/
def IsDirect : Event → Prop
  | .deleted _ | .substituted _ _ => False
  | _ => True

/-- A statement comes in that reads a variable which the graph has deleted. -/
def ReadsDeleted (g : Graph) (e : Event) : Prop :=
  ∃ s, e.statement? = some s ∧ ∃ u ∈ s.uses, g.site? u = some .deleted

end Event

/-- The edits for events that come after others, in order. -/
def directEdits (earlier : List Event) : List Event → List Graph.Edit
  | [] => []
  | e :: es => (e.edit? earlier).toList ++ directEdits (earlier ++ [e]) es

/-- The graph after the edits for the events. -/
def direct (g : Graph) (es : List Event) : Graph := g.editAll (directEdits [] es)

theorem directEdits_append (earlier es later : List Event) :
    directEdits earlier (es ++ later)
      = directEdits earlier es ++ directEdits (earlier ++ es) later := by
  induction es generalizing earlier with
  | nil => simp [directEdits]
  | cons e es ih => simp [directEdits, ih]

theorem direct_concat (g : Graph) (es : List Event) (e : Event) :
    direct g (es ++ [e]) = (direct g es).editAll (e.edit? es).toList := by
  simp [direct, directEdits_append, directEdits, Graph.editAll]

/-! ## The events that count -/

/-- The statement in place of another that the edit of the graph refuses. -/
def Event.Refused (g : Graph) (e : Event) : Prop := e.ReadsDeleted g ∧ ∃ v s, e = .replaced v s

open Classical in
/-- The events without those that the edits of the graph refuse. -/
noncomputable def counted (g : Graph) (es : List Event) : List Event :=
  es.filter fun e => ¬e.Refused g

theorem counted_concat_of_refused (he : e.Refused g) : counted g (es ++ [e]) = counted g es := by
  simp [counted, he]

theorem counted_concat (he : ¬e.Refused g) : counted g (es ++ [e]) = counted g es ++ [e] := by
  simp [counted, he]

theorem mem_of_mem_counted (he : e ∈ counted g es) : e ∈ es := List.mem_of_mem_filter he

/-- What is refused inserts nothing. -/
theorem inserts_counted (g : Graph) (es : List Event) (v : Variable) :
    befores (counted g es) v = befores es v ∧ afters (counted g es) v = afters es v := by
  induction es using List.reverseRecOn with
  | nil => exact ⟨rfl, rfl⟩
  | append_singleton es e ih =>
    by_cases he : e.Refused g
    · obtain ⟨-, w, s, rfl⟩ := id he
      rw [counted_concat_of_refused he, befores_concat, afters_concat, ih.1, ih.2]
      exact ⟨(List.append_nil _).symm, (List.append_nil _).symm⟩
    · rw [counted_concat he, befores_concat, afters_concat, befores_concat, afters_concat,
        ih.1, ih.2]
      exact ⟨rfl, rfl⟩

/-- Where nothing is deleted something is left of every statement. -/
theorem exists_kept (hdirect : ∀ e ∈ es, e.IsDirect) (v : Variable) (s : Statement) :
    ∃ t, kept es v s = some t := by
  induction es using List.reverseRecOn with
  | nil => exact ⟨s, rfl⟩
  | append_singleton es e ih =>
    obtain ⟨t, ht⟩ := ih fun e' he' => hdirect e' (List.mem_append_left _ he')
    rw [kept_concat, ht]
    cases e with
    | visited | before | after | substituted => exact ⟨t, rfl⟩
    | replaced w s' =>
      by_cases hw : w = v
      · exact ⟨s', if_pos hw⟩
      · exact ⟨t, if_neg hw⟩
    | deleted w => exact (hdirect (.deleted w) (by simp) : False).elim

theorem exists_kept_counted (g : Graph) (hdirect : ∀ e ∈ es, e.IsDirect) (v : Variable)
    (s : Statement) : ∃ t, kept (counted g es) v s = some t :=
  exists_kept (fun e he => hdirect e (mem_of_mem_counted he)) v s

/-- The same is left of a statement whether or not the refused events count, unless it reads what
was deleted. -/
theorem kept_counted (g : Graph) (es : List Event) (v : Variable) (s : Statement) :
    kept (counted g es) v s = kept es v s
      ∨ ∃ t, kept es v s = some t ∧ ∃ u ∈ t.uses, g.site? u = some .deleted := by
  induction es using List.reverseRecOn with
  | nil => exact .inl rfl
  | append_singleton es e ih =>
    by_cases he : e.Refused g
    · obtain ⟨⟨s', hs', hreads⟩, w, t, rfl⟩ := id he
      obtain rfl : t = s' := Option.some.inj hs'
      rw [counted_concat_of_refused he, kept_concat]
      by_cases hw : w = v
      · exact .inr ⟨t, if_pos hw, hreads⟩
      · rwa [Event.keep, if_neg hw]
    · rw [counted_concat he, kept_concat, kept_concat]
      rcases ih with hsame | ⟨t, ht, hreads⟩
      · exact .inl (by rw [hsame])
      · rw [ht]
        cases e with
        | visited | before | after | substituted => exact .inr ⟨t, rfl, hreads⟩
        | replaced w s' | deleted w =>
          by_cases hw : w = v
          · exact .inl (by rw [Event.keep, Event.keep, if_pos hw, if_pos hw])
          · exact .inr ⟨t, if_neg hw, hreads⟩

/-! ## What is bound -/

/-- The blocks of a graph with what was made of each statement. -/
def editedBlocks (g : Graph) (es : List Event) : Array Block :=
  g.blocks.map fun b => { b with body := b.body.flatMap (around es) }

theorem block?_of_editedBlocks (hblocks : h.blocks = editedBlocks g es) (b : BlockId) :
    h.block? b = (g.block? b).map fun block =>
      { block with body := block.body.flatMap (around es) } := by
  rw [Graph.block?, hblocks, editedBlocks, Array.getElem?_map]
  rfl

/-- A statement that was inserted was handed out a variable. -/
theorem handed_of_mem_around {entry entry' : Variable × Statement}
    (hmem : entry' ∈ around es entry) :
    entry'.1 = entry.1 ∨ entry'.1 ∈ es.filterMap Event.handed? := by
  rcases mem_around.1 hmem with hbefore | ⟨hsame, -⟩ | hafter
  · exact .inr (handed_of_inserted (.inl hbefore))
  · exact .inl hsame
  · exact .inr (handed_of_inserted (.inr hafter))

/-- What is bound after the events was bound before or handed out. -/
theorem bound_or_handed (hblocks : h.blocks = editedBlocks g es) (hu : u ∈ h.boundVars) :
    u ∈ g.boundVars ∨ u ∈ es.filterMap Event.handed? := by
  obtain ⟨block', hmem, hu⟩ := List.mem_flatMap.1 hu
  rw [hblocks, editedBlocks, Array.toList_map] at hmem
  obtain ⟨block, hblock, rfl⟩ := List.mem_map.1 hmem
  have hbound : block.boundVars ⊆ g.boundVars := fun w hw => List.mem_flatMap.2 ⟨block, hblock, hw⟩
  rcases List.mem_append.1 hu with hu | hu
  · exact .inl (hbound (List.mem_append_left _ hu))
  · obtain ⟨entry', hentry', rfl⟩ := List.mem_map.1 hu
    obtain ⟨entry, hentry, haround⟩ := List.mem_flatMap.1 hentry'
    rcases handed_of_mem_around haround with heq | hhanded
    · exact .inl (hbound (List.mem_append_right _ (heq ▸ List.mem_map_of_mem hentry)))
    · exact .inr hhanded

/-- What the graph has deleted stays unbound. -/
theorem not_bound_of_deleted (hg : g.Coherent) (hp : Recorded g p es)
    (hu : g.site? u = some .deleted) {es' : List Event} (hsub : es' ⊆ es)
    (hblocks : h.blocks = editedBlocks g es') : u ∉ h.boundVars := by
  obtain ⟨hlt, hnot⟩ := (hg.site_deleted_iff u).1 hu
  intro hbound
  rcases bound_or_handed hblocks hbound with hold | hhanded
  · exact hnot hold
  · replace hhanded := List.filterMap_subset Event.handed? hsub hhanded
    rw [hp.handed.1] at hhanded
    obtain ⟨i, hi, rfl⟩ := List.mem_map.1 hhanded
    obtain ⟨hle, -⟩ := List.mem_range'_1.1 hi
    exact absurd hlt (Nat.not_lt.2 hle)

/-- What the graph binds stays bound, and what is handed out is bound. -/
theorem bound_of_bound_or_handed (ht : Tracks g p es) (hdirect : ∀ e ∈ es, e.IsDirect)
    (hblocks : h.blocks = editedBlocks g (counted g es))
    (hu : u ∈ g.boundVars ∨ u ∈ es.filterMap Event.handed?) : u ∈ h.boundVars := by
  have hblock : ∀ b block, g.block? b = some block → ∀ w,
      w ∈ block.paramVars ∨ w ∈ (block.body.flatMap (around (counted g es))).map Prod.fst →
      w ∈ h.boundVars := by
    intro b block hb w hw
    have hb' : h.block? b
        = some { block with body := block.body.flatMap (around (counted g es)) } := by
      rw [block?_of_editedBlocks hblocks, hb]
      rfl
    exact Graph.mem_boundVars_of_block? hb' (List.mem_append.2 hw)
  -- a parameter stays as it is; of a statement something is left, since none is deleted
  rcases hu with hu | hu
  · obtain ⟨block, hmem, hu⟩ := List.mem_flatMap.1 hu
    obtain ⟨i, hi⟩ := List.mem_iff_getElem?.1 hmem
    have hb : g.block? ⟨i⟩ = some block := by simpa [Graph.block?] using hi
    refine hblock _ block hb u ?_
    rcases List.mem_append.1 hu with hu | hu
    · exact .inl hu
    · obtain ⟨⟨v, s⟩, hentry, rfl⟩ := List.mem_map.1 hu
      obtain ⟨t, ht⟩ := exists_kept_counted g hdirect v s
      refine .inr (List.mem_map.2 ⟨(v, t), List.mem_flatMap.2 ⟨(v, s), hentry, ?_⟩, rfl⟩)
      simp [around, ht]
  · obtain ⟨e, he, v, s, hat, hinserted⟩ := exists_inserted hu
    obtain ⟨b, block, old, hb, hmem⟩ := ht.home he hat
    refine hblock b block hb u
      (.inr (List.mem_map.2 ⟨(u, s), List.mem_flatMap.2 ⟨(v, old), hmem, ?_⟩, rfl⟩))
    obtain ⟨hbefores, hafters⟩ := inserts_counted g es v
    rw [around, hbefores, hafters]
    simp only [List.mem_append]
    rcases hinserted with hinserted | hinserted
    · exact .inl (.inl hinserted)
    · exact .inr hinserted

/-- The pass knows the sites that its graph had. -/
theorem Recorded.site? (hp : Recorded g p es) (hu : u.index < g.varCount) :
    p.source.site? u = g.site? u := by
  -- handing a variable out adds a site at the end, where no older variable is
  have hpush : ∀ {q : EditPass}, u.index < q.varCount →
      q.fresh.1.source.site? u = q.source.site? u := fun hlt =>
    (Array.getElem?_push_lt hlt).trans (Array.getElem?_eq_getElem hlt).symm
  induction hp with
  | start => rfl
  | @step p p' es e hp hstep ih =>
    have hlt : u.index < p.varCount := by
      rw [hp.handed.2]
      omega
    cases hstep with
    | advance => rwa [EditPass.advance, source_seek, source_flush]
    | before hinsert =>
      obtain ⟨-, rfl, -⟩ := insertBefore_eq_ok.1 hinsert
      exact (hpush hlt).trans ih
    | after hinsert =>
      obtain ⟨-, rfl, -⟩ := insertAfter_eq_ok.1 hinsert
      exact (hpush hlt).trans ih
    | replaced hreplace =>
      obtain ⟨-, rfl⟩ := replace_eq_ok.1 hreplace
      exact ih
    | deleted hdelete =>
      obtain ⟨-, -, rfl⟩ := delete_eq_ok.1 hdelete
      exact ih
    | substituted hsubstitute =>
      obtain ⟨-, -, rfl⟩ := substitute_eq_ok.1 hsubstitute
      exact ih

/-! ## Where the visited statement stands -/

/-- The pass stands at the statement of `v`, which comes in its block after `seen` and before
`rest`, and at the statements of `rest` nothing has happened yet. -/
structure Stands (g : Graph) (p : EditPass) (es : List Event) (v : Variable) (block : Block)
    (seen : List (Variable × Statement)) (s : Statement)
    (rest : List (Variable × Statement)) : Prop where
  home : g.block? ⟨p.block⟩ = some block
  body : block.body = seen ++ (v, s) :: rest
  next : p.next = seen.length + 1
  current : p.current = some v
  after : p.after = afters es v
  untouched : ∀ e ∈ es, ∀ entry ∈ rest, e.at? ≠ some entry.1

theorem Tracks.stands (ht : Tracks g p es) (hg : g.Coherent) (hcurrent : p.current = some v) :
    ∃ block seen s rest, Stands g p es v block seen s rest := by
  have hv := ht.visiting hcurrent
  obtain ⟨block, seen, s, hblock, hvisited, -, -⟩ := hv.here
  have hsplit : block.body = seen ++ (v, s) :: p.unvisited p.block block.body := by
    have hall := p.visited_append_unvisited p.block block.body
    rw [hvisited, List.append_assoc] at hall
    exact hall.symm
  have hnext : p.next = seen.length + 1 := by
    have hlength := congrArg List.length hvisited
    rw [visited_here, List.length_take_of_le (ht.next_le block hblock)] at hlength
    simpa using hlength
  exact ⟨block, seen, s, p.unvisited p.block block.body, hblock, hsplit, hnext, hcurrent, hv.after,
    ht.untouched_ahead hg hblock⟩

theorem checkUse_eq_ok {before : Bool} :
    p.checkUse before u = .ok () ↔ ∃ site, p.source.site? u = some site
      ∧ (before = true → p.current ≠ some u ∧ u ∉ p.after.map Prod.fst)
      ∧ p.isAhead site = false := by
  unfold checkUse
  rcases p.source.site? u with _ | site
  · exact ⟨nofun, nofun⟩
  · cases before with
    | false => cases hahead : p.isAhead site <;> simp [hahead]
    | true =>
      by_cases hcurrent : p.current = some u <;> cases hahead : p.isAhead site <;>
        simp [hcurrent, hahead]

/-! ## One edit -/

/-- The graph to which the edits for the events have led. -/
structure Replayed (g : Graph) (es : List Event) (h : Graph) : Prop where
  blocks : h.blocks = editedBlocks g (counted g es)
  coherent : h.Coherent
  varCount : h.varCount = g.varCount + (es.filterMap Event.handed?).length
  lines : h.lines = g.lines
  provenance : h.provenance = g.provenance

section Stands

variable {block : Block} {seen rest : List (Variable × Statement)} {t : Statement}

/-- What stands before the visited statement in the graph to which the edits have led. -/
noncomputable def front (g : Graph) (es : List Event) (seen : List (Variable × Statement))
    (v : Variable) :
    List (Variable × Statement) := seen.flatMap (around (counted g es)) ++ befores es v

/-- The block of the visited statement in that graph. -/
theorem Replayed.block? (hr : Replayed g es h) (hs : Stands g p es v block seen s rest)
    (ht : kept (counted g es) v s = some t) : h.block? ⟨p.block⟩ = some { block with
      body := front g es seen v ++ (v, t) :: (afters es v ++ rest) } := by
  obtain ⟨hbefores, hafters⟩ := inserts_counted g es v
  have hrest : rest.flatMap (around (counted g es)) = rest :=
    flatMap_around_untouched fun e he => hs.untouched e (mem_of_mem_counted he)
  rw [block?_of_editedBlocks hr.blocks, hs.home, Option.map_some, hs.body, List.flatMap_append,
    List.flatMap_cons, hrest, around, hbefores, hafters, ht]
  simp [front]

/-- It stands there where the front ends. -/
theorem Replayed.site? (hr : Replayed g es h) (hs : Stands g p es v block seen s rest)
    (ht : kept (counted g es) v s = some t) :
    h.site? v = some (.statement ⟨p.block⟩ (front g es seen v).length) := by
  refine (hr.coherent.site_statement_iff _ _ _).2 ⟨_, t, hr.block? hs ht, ?_⟩
  rw [List.getElem?_append_right (Nat.le_refl _), Nat.sub_self, List.getElem?_cons_zero]

/-- The place behind which the next statement is inserted after it. -/
theorem Replayed.site?_lastAfter (hr : Replayed g es h) (hs : Stands g p es v block seen s rest)
    (ht : kept (counted g es) v s = some t) : h.site? (lastAfter es v)
      = some (.statement ⟨p.block⟩ ((front g es seen v).length + (afters es v).length)) := by
  rcases List.eq_nil_or_concat (afters es v) with hnil | ⟨earlier, last, hafters⟩
  · rw [lastAfter, hnil]
    exact hr.site? hs ht
  · refine (hr.coherent.site_statement_iff _ _ _).2 ⟨_, last.2, hr.block? hs ht, ?_⟩
    rw [lastAfter, hafters, List.concat_eq_append]
    simp

/-- A variable that the pass lets a statement read is bound in the graph to which the edits have
led, and not by the visited statement or what comes after it; after it, not by what comes after what
was inserted there. -/
theorem Replayed.reads (hr : Replayed g es h) (hg : g.Coherent) (hp : Recorded g p es)
    (hdirect : ∀ e ∈ es, e.IsDirect) (hs : Stands g p es v block seen s rest)
    (ht : kept (counted g es) v s = some t) (before : Bool) (hu : p.checkUse before u = .ok ())
    (hdeleted : g.site? u ≠ some .deleted) : h.isDefined u = true
      ∧ ∀ j, h.site? u = some (.statement ⟨p.block⟩ j) →
        j < (front g es seen v).length + if before then 0 else (afters es v).length + 1 := by
  obtain ⟨site, hsite, hbehind, hahead⟩ := checkUse_eq_ok.1 hu
  have hbound : u ∈ h.boundVars := by
    refine bound_of_bound_or_handed (hp.tracks hg) hdirect hr.blocks ?_
    by_cases hold : u.index < g.varCount
    · by_contra hnot
      rw [not_or] at hnot
      exact hdeleted ((hg.site_deleted_iff u).2 ⟨hold, hnot.1⟩)
    · have hlt : u.index < p.varCount := (Array.getElem?_eq_some_iff.1 hsite).1
      rw [hp.handed.2] at hlt
      rw [hp.handed.1]
      exact .inr (List.mem_map.2 ⟨u.index, List.mem_range'_1.2 ⟨Nat.le_of_not_lt hold, hlt⟩, rfl⟩)
  -- what comes after the visited statement in the graph of the pass is ahead of the pass
  have hrest : ∀ t', (u, t') ∉ rest := by
    intro t' hmem
    obtain ⟨k, hk⟩ := List.mem_iff_getElem?.1 hmem
    have hk' : block.body[seen.length + 1 + k]? = some (u, t') := by
      rw [hs.body, List.getElem?_append_right (by omega)]
      have : seen.length + 1 + k - seen.length = k + 1 := by omega
      rw [this, List.getElem?_cons_succ, hk]
    have hplace := (hg.site_statement_iff u ⟨p.block⟩ _).2 ⟨block, t', hs.home, hk'⟩
    have hsame := hp.site? (Array.getElem?_eq_some_iff.1 hplace).1
    rw [hsite, hplace] at hsame
    obtain rfl := Option.some.inj hsame
    rw [isAhead, hs.next] at hahead
    simp at hahead
  refine ⟨(hr.coherent.isDefined_iff u).2 hbound, fun j hj => ?_⟩
  obtain ⟨block', t', hblock', hentry⟩ := (hr.coherent.site_statement_iff u _ j).1 hj
  rw [hr.block? hs ht] at hblock'
  obtain rfl := Option.some.inj hblock'
  by_contra hle
  rw [Nat.not_lt] at hle
  rw [List.getElem?_append_right (le_trans (Nat.le_add_right _ _) hle)] at hentry
  -- an insertion before may not read the visited statement or what stands behind it; what comes
  -- after it may
  cases before with
  | true =>
    obtain ⟨hne, hafter⟩ := hbehind rfl
    rcases List.mem_cons.1 (List.mem_iff_getElem?.2 ⟨_, hentry⟩) with heq | hmem
    · cases heq
      exact hne hs.current
    · rcases List.mem_append.1 hmem with hmem | hmem
      · exact hafter (hs.after ▸ List.mem_map_of_mem (f := Prod.fst) hmem)
      · exact hrest t' hmem
  | false =>
    obtain ⟨k, hk⟩ : ∃ k, j - (front g es seen v).length = k + 1 :=
      ⟨j - (front g es seen v).length - 1, by simp at hle; omega⟩
    rw [hk, List.getElem?_cons_succ, List.getElem?_append_right (by simp at hle; omega)] at hentry
    exact hrest t' (List.mem_iff_getElem?.2 ⟨_, hentry⟩)

/-- A new statement whose reads the pass lets through is accepted at the place of the visited one,
or behind what was inserted after that, if it reads nothing deleted. -/
theorem Replayed.accepts (hr : Replayed g es h) (hg : g.Coherent) (hp : Recorded g p es)
    (hdirect : ∀ e ∈ es, e.IsDirect) (hs : Stands g p es v block seen s rest)
    (ht : kept (counted g es) v s = some t) (before : Bool) {new : Statement}
    (huses : ∀ u ∈ new.uses, p.checkUse before u = .ok ())
    (hreads : ∀ u ∈ new.uses, g.site? u ≠ some .deleted) :
    h.checkStatement ⟨p.block⟩
      ((front g es seen v).length + if before then 0 else (afters es v).length + 1) new = .ok () :=
  Graph.checkStatement_eq_ok.2 fun u hu => hr.reads hg hp hdirect hs ht before (huses u hu)
    (hreads u hu)

/-- No other statement of the graph binds the variable of the visited one. -/
theorem Stands.alone (hs : Stands g p es v block seen s rest) (hg : g.Coherent) :
    (∀ entry ∈ seen, entry.1 ≠ v) ∧ (∀ entry ∈ rest, entry.1 ≠ v)
      ∧ ∀ b other, ⟨p.block⟩ ≠ b → g.block? b = some other → ∀ entry ∈ other.body, entry.1 ≠ v := by
  have hnodup : (seen.map Prod.fst ++ v :: rest.map Prod.fst).Nodup := by
    have hrow := Agrees.nodup hg (.body ⟨p.block⟩)
    rwa [Graph.row_body_of_block? hs.home, Block.bodyVars, hs.body, List.map_append,
      List.map_cons] at hrow
  obtain ⟨-, hrest, hseen⟩ := List.nodup_append.1 hnodup
  refine ⟨fun entry hmem heq => ?_, fun entry hmem heq => ?_, ?_⟩
  · exact hseen _ (List.mem_map_of_mem hmem) v List.mem_cons_self heq
  · exact (List.nodup_cons.1 hrest).1 (heq ▸ List.mem_map_of_mem hmem)
  · rintro b other hne hb ⟨w, t'⟩ hmem rfl
    obtain ⟨j, hj⟩ := List.mem_iff_getElem?.1 hmem
    have hhere : block.body[seen.length]? = some (w, s) := by
      rw [hs.body, List.getElem?_append_right (Nat.le_refl _), Nat.sub_self,
        List.getElem?_cons_zero]
    exact hne (hg.place_unique hs.home hhere hb hj).1

/-- An edit at the visited statement that makes of it what the event asks for keeps up with the
events. -/
theorem Replayed.edited (hr : Replayed g es h) (hg : g.Coherent)
    (hs : Stands g p es v block seen s rest) (ht : kept (counted g es) v s = some t)
    (hat : e.at? = some v) (he : ¬e.Refused g) (hcoherent : h'.Coherent)
    (hcount : h'.varCount = h.varCount + e.handed?.toList.length) (hlines : h'.lines = h.lines)
    (hprovenance : h'.provenance = h.provenance)
    (hother : ∀ c, ⟨p.block⟩ ≠ c → h'.block? c = h.block? c)
    (hhere : h'.block? ⟨p.block⟩ = some { block with
      body :=
      front g es seen v ++ ((e.before? v).toList ++ ((e.keep v (some t)).toList.map (Prod.mk v)
        ++ (afters es v ++ ((e.after? v).toList ++ rest)))) }) : Replayed g (es ++ [e]) h' where
  blocks := by
    obtain ⟨hseen, hafter, helse⟩ := hs.alone hg
    obtain ⟨hbefores, hafters⟩ := inserts_counted g es v
    have hne : ∀ {entry : Variable × Statement}, entry.1 ≠ v →
        e.at? ≠ some entry.1 := fun hentry heq =>
      hentry (Option.some.inj (hat.symm.trans heq)).symm
    have haround : around (counted g es ++ [e]) (v, s) = befores es v ++ ((e.before? v).toList
        ++ ((e.keep v (some t)).toList.map (Prod.mk v)
          ++ (afters es v ++ (e.after? v).toList))) := by
      simp [around, befores_concat, kept_concat, afters_concat, hbefores, hafters, ht]
    rw [counted_concat he]
    refine Array.ext_getElem? fun i => ?_
    rw [editedBlocks, Array.getElem?_map]
    -- the block of the visited statement changes around it alone; the other blocks do not contain
    -- it
    by_cases heq : p.block = i
    · subst heq
      have hrest : rest.flatMap (around (counted g es)) = rest :=
        flatMap_around_untouched fun e he => hs.untouched e (mem_of_mem_counted he)
      have hhome : g.blocks[p.block]? = some block := hs.home
      have hhere' : h'.blocks[p.block]? = _ := hhere
      rw [hhere', hhome, Option.map_some, hs.body, List.flatMap_append, List.flatMap_cons,
        flatMap_around_concat fun entry hmem => hne (hseen entry hmem),
        flatMap_around_concat fun entry hmem => hne (hafter entry hmem), hrest, haround, front]
      simp only [List.append_assoc]
    · have hi : (⟨p.block⟩ : BlockId) ≠ ⟨i⟩ := fun hi => heq (congrArg BlockId.index hi)
      have hsame : h'.blocks[i]? = h.block? ⟨i⟩ := hother ⟨i⟩ hi
      rw [hsame, block?_of_editedBlocks hr.blocks, Graph.block?]
      rcases hb : g.blocks[i]? with _ | other
      · rfl
      · rw [Option.map_some, Option.map_some,
          flatMap_around_concat fun entry hmem => hne (helse ⟨i⟩ other hi hb entry hmem)]
  coherent := hcoherent
  varCount := by
    rw [hcount, hr.varCount, List.filterMap_append, List.length_append, Nat.add_assoc]
    rcases hhanded : e.handed? with _ | new <;> simp [hhanded]
  lines := hlines.trans hr.lines
  provenance := hprovenance.trans hr.provenance

end Stands

/-- An event that is at no statement needs no edit. -/
theorem Replayed.unplaced (hr : Replayed g es h) (hat : e.at? = none) :
    Replayed g (es ++ [e]) h where
  blocks := by
    have he : ¬e.Refused g := by
      rintro ⟨-, v, s, rfl⟩
      cases hat
    have haround : ∀ entries : List (Variable × Statement),
        entries.flatMap (around (counted g es ++ [e])) = entries.flatMap (around (counted g es)) :=
      fun _ => flatMap_around_concat fun entry _ => by rw [hat]; nofun
    rw [hr.blocks, counted_concat he, editedBlocks, editedBlocks]
    simp only [haround]
  coherent := hr.coherent
  varCount := by
    have hnone : e.handed? = none := by
      cases e with
      | visited | substituted => rfl
      | _ => cases hat
    rw [hr.varCount, List.filterMap_append, List.filterMap_cons, hnone]
    simp
  lines := hr.lines
  provenance := hr.provenance

theorem varCount_inserted (h : Graph) (b : BlockId) (i : Nat) (s : Statement) :
    (h.inserted b i s).varCount = h.varCount + 1 :=
  (Graph.size_number ..).trans (Array.size_push _)

/-- **One step.** What a pass does with a statement that reads nothing deleted is done by the edit
of the graph as well, with the same variable. -/
theorem Replayed.step (hr : Replayed g es h) (hg : g.Coherent) (hp : Recorded g p es)
    (hstep : Step p p' e) (hdirect : ∀ e' ∈ es ++ [e], e'.IsDirect) (hreads : ¬e.ReadsDeleted g) :
    (e.edit? es = none ∧ Replayed g (es ++ [e]) h)
      ∨ ∃ edit h', e.edit? es = some edit ∧ edit.run h = .ok (h', e.handed?)
        ∧ Replayed g (es ++ [e]) h' := by
  have hdirect' : ∀ e' ∈ es, e'.IsDirect := fun e' he' => hdirect e' (List.mem_append_left _ he')
  have he : ¬e.Refused g := fun hrefused => hreads hrefused.1
  have hlive : ∀ s', e.statement? = some s' → ∀ u ∈ s'.uses, g.site? u ≠ some .deleted :=
    fun s' hs' u hu hdeleted => hreads ⟨s', hs', u, hu, hdeleted⟩
  have htracks := hp.tracks hg
  have hfresh : h.fresh = p.source.fresh :=
    congrArg Variable.mk (hr.varCount.trans hp.handed.2.symm)
  cases hstep with
  | advance => exact .inl ⟨rfl, hr.unplaced rfl⟩
  | @before _ v new s' hinsert =>
    obtain ⟨hcheck, -, rfl⟩ := insertBefore_eq_ok.1 hinsert
    obtain ⟨hcurrent, huses⟩ := check_eq_ok.1 hcheck
    obtain ⟨block, seen, s, rest, hs⟩ := htracks.stands hg hcurrent
    obtain ⟨t, ht⟩ := exists_kept_counted g hdirect' v s
    have hstatement := hr.accepts hg hp hdirect' hs ht true huses (hlive s' rfl)
    have hedit : h.insertBefore v s'
        = .ok (h.inserted ⟨p.block⟩ (front g es seen v).length s', p.source.fresh) :=
      Graph.insertBefore_eq_ok.2 ⟨_, _, hr.site? hs ht, hstatement, rfl, hfresh.symm⟩
    refine .inr ⟨_, _, rfl, Graph.handing_eq_ok.2 ⟨_, hedit, rfl⟩, ?_⟩
    have hhome := hr.block? hs ht
    refine hr.edited hg hs ht rfl he
      (hr.coherent.inserted hhome (by simp only [List.length_append, List.length_cons]; omega) s')
      (varCount_inserted ..) rfl rfl
      (fun c hc => (Graph.block?_inserted ..).trans (if_neg hc)) ?_
    rw [Graph.block?_inserted, if_pos rfl, hhome, Option.map_some, Graph.insertIdx_append, hfresh]
    simp [Event.before?, Event.keep, Event.after?]
  | @after _ v new s' hinsert =>
    obtain ⟨hcheck, -, rfl⟩ := insertAfter_eq_ok.1 hinsert
    obtain ⟨hcurrent, huses⟩ := check_eq_ok.1 hcheck
    obtain ⟨block, seen, s, rest, hs⟩ := htracks.stands hg hcurrent
    obtain ⟨t, ht⟩ := exists_kept_counted g hdirect' v s
    have hhome := hr.block? hs ht
    -- what was inserted after the statement before now stands between it and the new one
    have hbody : front g es seen v ++ (v, t) :: (afters es v ++ rest)
        = (front g es seen v ++ (v, t) :: afters es v) ++ rest := by simp
    have hlength : (front g es seen v ++ (v, t) :: afters es v).length
        = (front g es seen v).length + (afters es v).length + 1 := by simp [Nat.add_assoc]
    have hstatement := hr.accepts hg hp hdirect' hs ht false huses (hlive s' rfl)
    have hedit : h.insertAfter (lastAfter es v) s' = .ok (h.inserted ⟨p.block⟩
        ((front g es seen v).length + (afters es v).length + 1) s', p.source.fresh) :=
      Graph.insertAfter_eq_ok.2 ⟨_, _, hr.site?_lastAfter hs ht, hstatement, rfl, hfresh.symm⟩
    refine .inr ⟨_, _, rfl, Graph.handing_eq_ok.2 ⟨_, hedit, rfl⟩, ?_⟩
    refine hr.edited hg hs ht rfl he
      (hr.coherent.inserted hhome (by simp only [List.length_append, List.length_cons]; omega) s')
      (varCount_inserted ..) rfl rfl
      (fun c hc => (Graph.block?_inserted ..).trans (if_neg hc)) ?_
    rw [Graph.block?_inserted, if_pos rfl, hhome, Option.map_some, hbody, ← hlength,
      Graph.insertIdx_append, hfresh]
    simp [Event.before?, Event.keep, Event.after?]
  | @replaced _ v s' hreplace =>
    obtain ⟨hcheck, -⟩ := replace_eq_ok.1 hreplace
    obtain ⟨hcurrent, huses⟩ := check_eq_ok.1 hcheck
    obtain ⟨block, seen, s, rest, hs⟩ := htracks.stands hg hcurrent
    obtain ⟨t, ht⟩ := exists_kept_counted g hdirect' v s
    have hstatement := hr.accepts hg hp hdirect' hs ht true huses (hlive s' rfl)
    have hedit := Graph.set_eq_ok.2 ⟨_, _, hr.site? hs ht, hstatement, rfl, rfl⟩
    refine .inr ⟨_, _, rfl, Graph.keeping_eq_ok.2 ⟨_, hedit, rfl⟩, ?_⟩
    refine hr.edited hg hs ht rfl he (hr.coherent.withStatement _ _ _) rfl rfl rfl
      (fun c hc => (Graph.block?_modifyBlock ..).trans (if_neg hc)) ?_
    rw [Graph.block?_modifyBlock, if_pos rfl, hr.block? hs ht, Option.map_some, Graph.modify_append]
    simp [Event.before?, Event.keep, Event.after?]
  | deleted hdelete =>
    exact False.elim (hdirect _ (List.mem_append_right _ (List.mem_singleton_self _)))
  | substituted hsubstitute =>
    exact False.elim (hdirect _ (List.mem_append_right _ (List.mem_singleton_self _)))

/-- Checks of which one fails, where each failure is told by its element, end with the first
failure. -/
theorem forM_eq_error {ε α : Type} {l : List α} {f : α → Except ε PUnit} {fault : α → ε}
    (hall : ∀ a ∈ l, f a = .ok () ∨ f a = .error (fault a)) (hsome : ∃ a ∈ l, f a ≠ .ok ()) :
    ∃ a ∈ l, f a ≠ .ok () ∧ l.forM f = .error (fault a) := by
  induction l with
  | nil =>
    obtain ⟨a, ha, -⟩ := hsome
    cases ha
  | cons a l ih =>
    have hcons : (a :: l).forM f = f a >>= fun _ => l.forM f := rfl
    rcases hall a List.mem_cons_self with hok | herror
    · obtain ⟨b, hb, hfails⟩ := hsome
      have hmem : b ∈ l := (List.mem_cons.1 hb).resolve_left fun heq => hfails (heq ▸ hok)
      obtain ⟨c, hc, hfails', herror⟩ :=
        ih (fun b hb => hall b (List.mem_cons_of_mem _ hb)) ⟨b, hmem, hfails⟩
      exact ⟨c, List.mem_cons_of_mem _ hc, hfails', by rw [hcons, hok]; exact herror⟩
    · refine ⟨a, List.mem_cons_self, ?_, by rw [hcons, herror]; rfl⟩
      rw [herror]
      nofun

/-- A statement in place of another that reads what the graph has deleted is refused by the edit. -/
theorem Replayed.refused (hr : Replayed g es h) (hg : g.Coherent) (hp : Recorded g p es)
    (hstep : Step p p' e) (hdirect : ∀ e' ∈ es, e'.IsDirect) (he : e.Refused g) :
    Replayed g (es ++ [e]) h
      ∧ ∃ edit u, e.edit? es = some edit ∧ edit.run h = .error (.structural (.dangling u)) := by
  obtain ⟨⟨s', hs', w, hw, hdeleted⟩, v, s₁, rfl⟩ := id he
  obtain rfl : s₁ = s' := Option.some.inj hs'
  refine ⟨⟨?_, hr.coherent, ?_, hr.lines, hr.provenance⟩, .set v s₁, ?_⟩
  · rw [counted_concat_of_refused he, hr.blocks]
  · rw [hr.varCount, List.filterMap_append]
    exact congrArg _ (congrArg List.length (List.append_nil _).symm)
  · cases hstep with
    | replaced hreplace =>
      obtain ⟨hcheck, -⟩ := replace_eq_ok.1 hreplace
      obtain ⟨hcurrent, huses⟩ := check_eq_ok.1 hcheck
      obtain ⟨block, seen, s, rest, hs⟩ := (hp.tracks hg).stands hg hcurrent
      obtain ⟨t, ht⟩ := exists_kept_counted g hdirect v s
      have hdangling : ∀ u, g.site? u = some .deleted →
          h.checkUseAt ⟨p.block⟩ (front g es seen v).length u
            = .error (.structural (.dangling u)) := by
        intro u hu
        have hsite : h.site? u = some .deleted := by
          refine (hr.coherent.site_deleted_iff u).2 ⟨?_, ?_⟩
          · rw [hr.varCount]
            exact Nat.lt_add_right _ ((hg.site_deleted_iff u).1 hu).1
          · exact not_bound_of_deleted hg hp hu (fun e he => mem_of_mem_counted he) hr.blocks
        rw [Graph.checkUseAt, Graph.reference, hsite]
        rfl
      have hall : ∀ u ∈ s₁.uses, h.checkUseAt ⟨p.block⟩ (front g es seen v).length u = .ok ()
          ∨ h.checkUseAt ⟨p.block⟩ (front g es seen v).length u
            = .error (.structural (.dangling u)) := by
        intro u hu
        by_cases hu' : g.site? u = some .deleted
        · exact .inr (hdangling u hu')
        · exact .inl (Graph.checkUseAt_eq_ok.2 (hr.reads hg hp hdirect hs ht true (huses u hu) hu'))
      -- every read is fine or refers to nothing, so the first that is not fine is the one
      -- complained about
      obtain ⟨u, -, -, herror⟩ := forM_eq_error hall ⟨w, hw, by simp [hdangling w hdeleted]⟩
      have hset : h.set v s₁ = .error (.structural (.dangling u)) := by
        rw [Graph.set, Graph.statementSite_eq_ok.2 (hr.site? hs ht)]
        show (h.checkStatement ⟨p.block⟩ (front g es seen v).length s₁ >>= _) = _
        rw [Graph.checkStatement, herror]
        rfl
      exact ⟨u, rfl, by rw [Graph.Edit.run, hset]; rfl⟩

/-! ## All edits -/

/-- Every event was a step of a pass. -/
theorem Recorded.split {earlier later : List Event} (hp : Recorded g p (earlier ++ e :: later)) :
    ∃ p₀ p₁, Recorded g p₀ earlier ∧ Step p₀ p₁ e := by
  generalize hall : earlier ++ e :: later = all at hp
  induction hp generalizing later with
  | start => simp at hall
  | @step p p' es e' hp hstep ih =>
    rcases List.eq_nil_or_concat later with rfl | ⟨front, last, rfl⟩
    · obtain ⟨rfl, hlast⟩ := List.append_inj' hall rfl
      cases hlast
      exact ⟨p, p', hp, hstep⟩
    · have hsplit : (earlier ++ e :: front) ++ [last] = es ++ [e'] := by simpa using hall
      exact ih (List.append_inj' hsplit rfl).1

/-- **The run.** The edits keep up with the events of a pass as long as only statements in place of
others read what the graph has deleted. -/
theorem Recorded.replayed (hp : Recorded g p es) (hg : g.Coherent) (hdirect : ∀ e ∈ es, e.IsDirect)
    (hreads : ∀ e ∈ es, e.ReadsDeleted g → e.Refused g) : Replayed g es (direct g es) := by
  induction hp with
  | start =>
    refine ⟨?_, hg, rfl, rfl, rfl⟩
    show g.blocks = editedBlocks g (counted g [])
    have hbody : ∀ b : Block, { b with body := b.body.flatMap (around (counted g [])) }
      = b := fun b => by
      rw [flatMap_around_untouched (by simp [counted])]
    simp only [editedBlocks, hbody, Array.map_id']
  | @step p p' es e hp hstep ih =>
    have hr := ih (fun e' he' => hdirect e' (List.mem_append_left _ he'))
      fun e' he' => hreads e' (List.mem_append_left _ he')
    rw [direct_concat]
    by_cases hread : e.ReadsDeleted g
    · obtain ⟨hr', edit, u, hedit, hrun⟩ := hr.refused hg hp hstep
        (fun e' he' => hdirect e' (List.mem_append_left _ he')) (hreads e (by simp) hread)
      simpa [hedit, Graph.editAll, Graph.Edit.apply, hrun] using hr'
    · rcases hr.step hg hp hstep hdirect hread with ⟨hedit, hr'⟩ | ⟨edit, h', hedit, hrun, hr'⟩
      · simpa [hedit, Graph.editAll] using hr'
      · simpa [hedit, Graph.editAll, Graph.Edit.apply, hrun] using hr'

/-! ## Passes that have a result -/

/-- Without substitutions nothing is redirected. -/
theorem redirectOf_direct (hdirect : ∀ e ∈ es, e.IsDirect) : redirectOf es = fun _ => none := by
  funext v
  exact Option.eq_none_iff_forall_ne_some.2 fun op hop => hdirect _ (substituted_of_redirectOf hop)

/-- Nothing is made of a statement by events that put no other in its place. -/
theorem foldl_keep_of_not_replaced {later : List Event} (hdirect : ∀ e ∈ later, e.IsDirect)
    (hnot : ∀ s, .replaced v s ∉ later) (old : Option Statement) :
    later.foldl (Event.keep v) old = old := by
  induction later generalizing old with
  | nil => rfl
  | cons e later ih =>
    have hone : e.keep v old = old := by
      cases e with
      | replaced w s =>
        refine if_neg fun hw => hnot s ?_
        rw [hw]
        exact List.mem_cons_self
      | deleted w => exact False.elim (hdirect (.deleted w) List.mem_cons_self)
      | _ => rfl
    rw [List.foldl_cons, hone]
    exact ih (fun e' he' => hdirect e' (List.mem_cons_of_mem _ he'))
      (fun s hs => hnot s (List.mem_cons_of_mem _ hs)) old

/-- The blocks of the result, where nothing is deleted or substituted. -/
theorem Edited.blocks_direct (hedited : Edited g es g') (hdirect : ∀ e ∈ es, e.IsDirect) :
    g'.blocks = editedBlocks g es := by
  obtain ⟨resolve, hends, hblocks⟩ := hedited.blocks
  have hresolve : resolve = id := by
    funext op
    refine (hends op).unique (.stop fun v _ => ?_)
    rw [redirectOf_direct hdirect]
  subst hresolve
  have hmap : ∀ s : Statement, s.map id = s := by
    rintro ⟨operation, ty, line⟩
    cases operation <;> simp [Statement.map, Operation.map]
  refine Array.toList_inj.1 ?_
  rw [editedBlocks, Array.toList_map]
  refine List.right_unique_forall₂' (R := EditedBlock es id)
    (fun _ _ _ => EditedBlock.unique) hblocks ?_
  refine List.forall₂_map_right_iff.2 (List.forall₂_same.2 fun block _ => ⟨rfl, ?_, ?_⟩)
  · simp [hmap]
  · refine List.forall₂_same.2 fun br _ => ⟨rfl, (List.map_id _).symm, ?_⟩
    rfl

/-- What the graph has deleted is not read by what is left of its statements and what was
inserted. -/
theorem Edited.reads_nothing_deleted (hedited : Edited g es g') (hg : g.Coherent)
    (hp : Recorded g p es) (hdirect : ∀ e ∈ es, e.IsDirect) (hused : g'.WellUsed) {b : BlockId}
    {block : Block} (hb : g.block? b = some block) {entry entry' : Variable × Statement}
    (hentry : entry ∈ block.body) (hmem : entry' ∈ around es entry) (hu : u ∈ entry'.2.uses) :
    g.site? u ≠ some .deleted := by
  intro hdeleted
  have hblocks := hedited.blocks_direct hdirect
  have hb' : g'.block? b = some { block with body := block.body.flatMap (around es) } := by
    rw [block?_of_editedBlocks hblocks, hb]
    rfl
  refine not_bound_of_deleted hg hp hdeleted (List.Subset.refl es) hblocks
    (hused.bound b _ hb' u ?_)
  exact List.mem_append_left _
    (List.mem_flatMap.2 ⟨entry', List.mem_flatMap.2 ⟨entry, hentry, hmem⟩, hu⟩)

/-- Where a pass has a result, a statement that reads what the graph has deleted can only have come
in the place of another, and there it was replaced again. -/
theorem Edited.replaced_again (hedited : Edited g es g') (hg : g.Coherent) (hp : Recorded g p es)
    (hdirect : ∀ e ∈ es, e.IsDirect) (hused : g'.WellUsed) {earlier later : List Event}
    (hes : es = earlier ++ e :: later) (hreads : e.ReadsDeleted g) :
    ∃ v s s', e = .replaced v s ∧ .replaced v s' ∈ later := by
  obtain ⟨s, hs, u, hu, hdeleted⟩ := hreads
  have he : e ∈ es := hes ▸ List.mem_append_right _ List.mem_cons_self
  have hnot : ∀ v, e.at? = some v → ∃ old, ∀ w, (w, s) ∉ around es (v, old) := by
    intro v hat
    obtain ⟨b, block, old, hb, hentry⟩ := (hp.tracks hg).home he hat
    exact ⟨old, fun w hmem => hedited.reads_nothing_deleted hg hp hdirect hused hb hentry hmem
      hu hdeleted⟩
  -- an insertion would be in the result, which reads nothing deleted; so would the last replacement
  cases e with
  | before v new s' =>
    obtain rfl : s' = s := Option.some.inj hs
    obtain ⟨old, hold⟩ := hnot v rfl
    refine (hold new (List.mem_append_left _ (List.mem_append_left _ ?_))).elim
    exact List.mem_filterMap.2 ⟨_, he, if_pos rfl⟩
  | after v new s' =>
    obtain rfl : s' = s := Option.some.inj hs
    obtain ⟨old, hold⟩ := hnot v rfl
    exact (hold new (List.mem_append_right _ (List.mem_filterMap.2 ⟨_, he, if_pos rfl⟩))).elim
  | replaced v s' =>
    obtain rfl : s' = s := Option.some.inj hs
    obtain ⟨old, hold⟩ := hnot v rfl
    by_contra hagain
    have hkept : kept es v old = some s' := by
      rw [hes, kept, List.foldl_append, List.foldl_cons, Event.keep, if_pos rfl]
      refine foldl_keep_of_not_replaced (fun e' he' => hdirect e' ?_) (fun t ht => ?_) _
      · exact hes ▸ List.mem_append_right _ (List.mem_cons_of_mem _ he')
      · exact hagain ⟨v, s', t, rfl, ht⟩
    exact hold v (by simp [around, hkept])
  | visited | deleted | substituted => cases hs

/-- **A pass that inserts and replaces does what edits of the graph do.** Let any calls be made of a
pass over a graph, let no deletion and no substitution be among those that were accepted, and let
the pass have a result. Then the same edits in the same order, each insertion after a statement
behind what was inserted there before, lead to that graph. Every one of them is accepted and hands
out the variable that the pass handed out, except where a statement takes the place of another and
reads what the graph had deleted before the pass. The edit refuses this, and the pass has put a
further statement in that place later. -/
theorem direct_edits_agree (h : Graph.Arises g) {ms : List Move}
    (hmoves : (start g).moveAll ms = (p, es)) (hdirect : ∀ e ∈ es, e.IsDirect)
    (hfinish : p.finish = .ok g') :
    direct g es = g'
      ∧ ∀ earlier e later, es = earlier ++ e :: later → ∀ edit, e.edit? earlier = some edit →
        (¬e.ReadsDeleted g → ∃ h', edit.run (direct g earlier) = .ok (h', e.handed?))
        ∧ (e.ReadsDeleted g →
          (∃ u, edit.run (direct g earlier) = .error (.structural (.dangling u)))
          ∧ ∃ v s s', e = .replaced v s ∧ .replaced v s' ∈ later) := by
  have hg := h.coherent
  have hp : Recorded g p es := by
    have hrecorded := recorded_moveAll g ms
    rwa [hmoves] at hrecorded
  have hacyclic : Acyclic (redirectOf es) := by
    intro v hv
    obtain ⟨u, hhop, -⟩ := Relation.TransGen.head'_iff.1 hv
    rw [Hops, redirectOf_direct hdirect] at hhop
    cases hhop
  obtain ⟨hedited, hused⟩ := (hp.finish_eq_ok hg hacyclic).1 hfinish
  have hreads : ∀ earlier e later, es = earlier ++ e :: later → e.ReadsDeleted g → e.Refused g := by
    intro earlier e later hes he
    obtain ⟨v, s, -, heq, -⟩ := hedited.replaced_again hg hp hdirect hused hes he
    exact ⟨he, v, s, heq⟩
  have hrefused : ∀ e ∈ es, e.ReadsDeleted g → e.Refused g := by
    intro e he
    obtain ⟨earlier, later, hes⟩ := List.append_of_mem he
    exact hreads earlier e later hes
  have hr := hp.replayed hg hdirect hrefused
  refine ⟨?_, fun earlier e later hes edit hedit => ?_⟩
  · -- nothing that is left of a statement reads what was deleted, so the refused edits make no
    -- difference
    have hblocks : editedBlocks g (counted g es) = editedBlocks g es := by
      refine Array.map_congr_left fun block hblock => ?_
      obtain ⟨i, hi⟩ := Array.mem_iff_getElem?.1 hblock
      have hflat : block.body.flatMap (around (counted g es)) = block.body.flatMap (around es) := by
        rw [List.flatMap_def, List.flatMap_def]
        refine congrArg List.flatten (List.map_congr_left fun entry hentry => ?_)
        obtain ⟨hbefores, hafters⟩ := inserts_counted g es entry.1
        rw [around, around, hbefores, hafters]
        rcases kept_counted g es entry.1 entry.2 with hsame | ⟨t, ht, u, hu, hdeleted⟩
        · rw [hsame]
        · have hmem : (entry.1, t) ∈ around es entry := by simp [around, ht]
          exact absurd hdeleted
            (hedited.reads_nothing_deleted hg hp hdirect hused (b := ⟨i⟩) hi hentry hmem hu)
      rw [hflat]
    have hsame : (direct g es).blocks = g'.blocks :=
      hr.blocks.trans (hblocks.trans (hedited.blocks_direct hdirect).symm)
    have hsites :=
      hr.coherent.sites_unique hedited.coherent hsame (hr.varCount.trans hedited.varCount.symm)
    have hlines := hr.lines.trans hedited.lines.symm
    have hprovenance := hr.provenance.trans hedited.provenance.symm
    generalize direct g es = g₁ at hsame hsites hlines hprovenance
    cases g₁
    cases g'
    exact Graph.mk.injEq .. ▸ ⟨hsites, hsame, hlines, hprovenance⟩
  · subst hes
    obtain ⟨p₀, p₁, hp₀, hstep⟩ := hp.split
    have hdirect₀ : ∀ e' ∈ earlier, e'.IsDirect :=
      fun e' he' => hdirect e' (List.mem_append_left _ he')
    have hr₀ := hp₀.replayed hg hdirect₀ fun e' he' => hrefused e' (List.mem_append_left _ he')
    refine ⟨fun he => ?_, fun he => ⟨?_, hedited.replaced_again hg hp hdirect hused rfl he⟩⟩
    · have hdirect₁ : ∀ e' ∈ earlier ++ [e], e'.IsDirect := fun e' he' =>
        hdirect e' (by simp only [List.mem_append, List.mem_cons] at he' ⊢; tauto)
      rcases hr₀.step hg hp₀ hstep hdirect₁ he with ⟨hnone, -⟩ | ⟨edit', h', hsome, hrun, -⟩
      · rw [hnone] at hedit
        cases hedit
      · obtain rfl := Option.some.inj (hsome.symm.trans hedit)
        exact ⟨h', hrun⟩
    · obtain ⟨-, edit', u, hsome, hrun⟩ :=
        hr₀.refused hg hp₀ hstep hdirect₀ (hreads earlier e later rfl he)
      obtain rfl := Option.some.inj (hsome.symm.trans hedit)
      exact ⟨u, hrun⟩

/-- A graph that has deleted a variable, with one statement. -/
def forgetful : Graph where
  sites := #[.deleted, .statement .entry 0]
  blocks := #[⟨[], [(⟨1⟩, .plain (.operand (.const (.int 2))))], [.leave (.var ⟨1⟩)]⟩]
  lines := []
  provenance := none

theorem arises_forgetful : Graph.Arises forgetful :=
  have hedits : (Graph.workAll .empty [.edit (.push (.plain (.operand (.const (.int 1))))),
      .edit (.push (.plain (.operand (.const (.int 2))))), .edit (.delete ⟨0⟩),
      .edit (.leaveWith .entry (.var ⟨1⟩))]).1 = forgetful := by cbv
  hedits ▸ (Graph.Arises.initial .empty).workAll _

/-- Calls of a pass over that graph: another statement that reads the deleted variable, a second one
that does not, and two statements after it. -/
def forgetfulMoves : List Move := [
  .advance,
  .replace ⟨1⟩ (.plain (.operand (.var ⟨0⟩))),
  .replace ⟨1⟩ (.plain (.operand (.const (.int 3)))),
  .insertAfter ⟨1⟩ (.plain (.operand (.var ⟨1⟩))),
  .insertAfter ⟨1⟩ (.plain (.operand (.var ⟨2⟩)))]

/-- The accepted ones, which are all. -/
def forgetfulEvents : List Event := [
  .visited (some ⟨1⟩),
  .replaced ⟨1⟩ (.plain (.operand (.var ⟨0⟩))),
  .replaced ⟨1⟩ (.plain (.operand (.const (.int 3)))),
  .after ⟨1⟩ ⟨2⟩ (.plain (.operand (.var ⟨1⟩))),
  .after ⟨1⟩ ⟨3⟩ (.plain (.operand (.var ⟨2⟩)))]

/-- The pass has the result of the edits, though the first one is refused. -/
theorem direct_edits_agree_forgetful : Graph.Arises forgetful ∧ ∃ p g',
    (start forgetful).moveAll forgetfulMoves = (p, forgetfulEvents)
      ∧ (∀ e ∈ forgetfulEvents, e.IsDirect)
      ∧ p.finish = .ok g' ∧ direct forgetful forgetfulEvents = g' := by
  obtain ⟨p, hmoves, g', hfinish⟩ : ∃ p, (start forgetful).moveAll forgetfulMoves
    = (p, forgetfulEvents)
      ∧ ∃ g', p.finish = .ok g' := ⟨_, by cbv, _, by cbv⟩
  have hdirect : ∀ e ∈ forgetfulEvents, e.IsDirect := by
    simp [forgetfulEvents, Event.IsDirect]
  exact ⟨arises_forgetful, p, g', hmoves, hdirect, hfinish,
    (direct_edits_agree arises_forgetful hmoves hdirect hfinish).1⟩

/-- What a pass with a result has accepted need not be accepted by the graph: the edit in place of
the first replacement is refused. -/
theorem direct_edit_refused : Graph.Arises forgetful ∧ (∀ e ∈ forgetfulEvents, e.IsDirect)
    ∧ (∃ p g', (start forgetful).moveAll forgetfulMoves = (p, forgetfulEvents) ∧ p.finish = .ok g')
    ∧ ∃ earlier e later edit, forgetfulEvents = earlier ++ e :: later ∧ e.edit? earlier = some edit
      ∧ edit.run (direct forgetful earlier) = .error (.structural (.dangling ⟨0⟩)) := by
  refine ⟨arises_forgetful, by simp [forgetfulEvents, Event.IsDirect], ⟨_, _, by cbv, by cbv⟩, ?_⟩
  exact ⟨[.visited (some ⟨1⟩)], _, _, .set ⟨1⟩ (.plain (.operand (.var ⟨0⟩))), rfl, rfl, by cbv⟩

end EditPass

end Interpose
