import Mathlib.Data.List.Induction
import Interpose.Proofs.Pass.Moves

/-!
# What a pass has written

The events of a pass say what the result has to be: every statement with what was inserted before
it, what was kept of it, and what was inserted after it. A pass holds this in pieces. What it has
left is in its output; of the visited statement only what comes before; the rest waits. `Tracks`
says which piece is where, and every call of a pass keeps it.
-/

set_option autoImplicit false

namespace Interpose

namespace EditPass

/-! ## What the events ask for -/

namespace Event

/-- The variable at whose statement an edit was made. -/
def at? : Event → Option Variable
  | .before v _ _ | .after v _ _ | .replaced v _ | .deleted v => some v
  | _ => none

/-- What a move to the next statement has answered. -/
def answer? : Event → Option (Option Variable)
  | .visited answer => some answer
  | _ => none

/-- A statement that was inserted before that of a variable. -/
def before? (v : Variable) : Event → Option (Variable × Statement)
  | .before w new s => if w = v then some (new, s) else none
  | _ => none

/-- A statement that was inserted after it. -/
def after? (v : Variable) : Event → Option (Variable × Statement)
  | .after w new s => if w = v then some (new, s) else none
  | _ => none

/-- What an event leaves of the statement of a variable. -/
def keep (v : Variable) (old : Option Statement) : Event → Option Statement
  | .replaced w s => if w = v then some s else old
  | .deleted w => if w = v then none else old
  | _ => old

/-- What a variable is redirected to after an event. -/
def redirect (v : Variable) (old : Option Operand) : Event → Option Operand
  | .substituted w op => if w = v then some op else old
  | _ => old

end Event

/-- The statements inserted before that of a variable, in the order of the calls. -/
def befores (es : List Event) (v : Variable) : List (Variable × Statement) :=
  es.filterMap (Event.before? v)

/-- The statements inserted after it. -/
def afters (es : List Event) (v : Variable) : List (Variable × Statement) :=
  es.filterMap (Event.after? v)

/-- What is left of the statement `s` of a variable. -/
def kept (es : List Event) (v : Variable) (s : Statement) : Option Statement :=
  es.foldl (Event.keep v) (some s)

/-- What a variable is redirected to: the latest substitution counts. -/
def redirectOf (es : List Event) (v : Variable) : Option Operand := es.foldl (Event.redirect v) none

/-- A statement with all that was made of it. -/
def around (es : List Event) (entry : Variable × Statement) : List (Variable × Statement) :=
  befores es entry.1 ++ (kept es entry.1 entry.2).toList.map (Prod.mk entry.1) ++ afters es entry.1

variable {g : Graph} {p p' : EditPass} {e : Event} {es : List Event} {v w : Variable}
  {s : Statement}

section Concat

theorem befores_concat (es : List Event) (e : Event) (v : Variable) :
    befores (es ++ [e]) v = befores es v ++ (e.before? v).toList := by
  rw [befores, List.filterMap_append]
  cases h : e.before? v <;> simp [befores, h]

theorem afters_concat (es : List Event) (e : Event) (v : Variable) :
    afters (es ++ [e]) v = afters es v ++ (e.after? v).toList := by
  rw [afters, List.filterMap_append]
  cases h : e.after? v <;> simp [afters, h]

theorem kept_concat (es : List Event) (e : Event) (v : Variable) (s : Statement) :
    kept (es ++ [e]) v s = e.keep v (kept es v s) := by
  simp [kept]

theorem redirectOf_concat (es : List Event) (e : Event) (v : Variable) :
    redirectOf (es ++ [e]) v = e.redirect v (redirectOf es v) := by
  simp [redirectOf]

/-- What a variable is redirected to was substituted for it. -/
theorem substituted_of_redirectOf {op : Operand} (h : redirectOf es v = some op) :
    .substituted v op ∈ es := by
  induction es using List.reverseRecOn with
  | nil => cases h
  | append_singleton es e ih =>
    rw [redirectOf_concat] at h
    cases e with
    | substituted w op' =>
      by_cases hw : w = v
      · rw [Event.redirect, if_pos hw] at h
        rw [hw, Option.some.inj h]
        exact List.mem_append_right _ List.mem_cons_self
      · rw [Event.redirect, if_neg hw] at h
        exact List.mem_append_left _ (ih h)
    | _ => exact List.mem_append_left _ (ih h)

/-- A variable for which something was substituted is redirected. -/
theorem exists_redirectOf {op : Operand} (h : .substituted v op ∈ es) :
    ∃ op', redirectOf es v = some op' := by
  induction es using List.reverseRecOn with
  | nil => exact absurd h List.not_mem_nil
  | append_singleton es e ih =>
    rw [redirectOf_concat]
    rcases List.mem_append.1 h with hmem | hlast
    · obtain ⟨op', hop'⟩ := ih hmem
      cases e with
      | substituted w op'' =>
        by_cases hw : w = v
        · exact ⟨op'', if_pos hw⟩
        · exact ⟨op', (if_neg hw).trans hop'⟩
      | _ => exact ⟨op', hop'⟩
    · rw [← List.mem_singleton.1 hlast]
      exact ⟨op, if_pos rfl⟩

/-- Of a statement that is deleted and never replaced nothing is left. -/
theorem kept_eq_none (hdeleted : .deleted v ∈ es) (hreplaced : ∀ t, .replaced v t ∉ es)
    (s : Statement) : kept es v s = none := by
  induction es using List.reverseRecOn with
  | nil => exact absurd hdeleted List.not_mem_nil
  | append_singleton es e ih =>
    rw [kept_concat]
    rcases List.mem_append.1 hdeleted with hmem | hlast
    · rw [ih hmem fun t ht => hreplaced t (List.mem_append_left _ ht)]
      cases e with
      | replaced w t =>
        refine if_neg fun hw => hreplaced t ?_
        rw [hw]
        exact List.mem_append_right _ List.mem_cons_self
      | deleted w => exact ite_self none
      | _ => rfl
    · rw [← List.mem_singleton.1 hlast]
      exact if_pos rfl

/-- Around a statement stands what was inserted before it, what is left of it, and what was inserted
after it. -/
theorem mem_around {entry : Variable × Statement} : (v, s) ∈ around es entry
    ↔ (v, s) ∈ befores es entry.1 ∨ (v = entry.1 ∧ kept es entry.1 entry.2 = some s)
      ∨ (v, s) ∈ afters es entry.1 := by
  have hkept : (v, s) ∈ (kept es entry.1 entry.2).toList.map (Prod.mk entry.1)
      ↔ v = entry.1 ∧ kept es entry.1 entry.2 = some s := by
    rw [List.mem_map]
    constructor
    · rintro ⟨t, ht, heq⟩
      cases heq
      exact ⟨rfl, Option.mem_toList.1 ht⟩
    · rintro ⟨rfl, hs⟩
      exact ⟨s, Option.mem_toList.2 hs, rfl⟩
  rw [around, List.mem_append, List.mem_append, hkept, or_assoc]

/-- What was inserted at a statement was handed out a variable. -/
theorem handed_of_inserted {entry : Variable × Statement}
    (h : entry ∈ befores es w ∨ entry ∈ afters es w) : entry.1 ∈ es.filterMap Event.handed? := by
  rw [befores, afters, List.mem_filterMap, List.mem_filterMap] at h
  rcases h with ⟨e, he, hentry⟩ | ⟨e, he, hentry⟩
  · cases e with
    | before w' new s =>
      rw [Event.before?] at hentry
      split at hentry
      · cases hentry
        exact List.mem_filterMap.2 ⟨_, he, rfl⟩
      · cases hentry
    | _ => cases hentry
  · cases e with
    | after w' new s =>
      rw [Event.after?] at hentry
      split at hentry
      · cases hentry
        exact List.mem_filterMap.2 ⟨_, he, rfl⟩
      · cases hentry
    | _ => cases hentry

/-- A variable that was handed out binds what was inserted at some statement. -/
theorem exists_inserted (h : v ∈ es.filterMap Event.handed?) : ∃ e ∈ es, ∃ w s, e.at? = some w
    ∧ ((v, s) ∈ befores es w ∨ (v, s) ∈ afters es w) := by
  obtain ⟨e, he, hhanded⟩ := List.mem_filterMap.1 h
  refine ⟨e, he, ?_⟩
  cases e with
  | before w new s =>
    obtain rfl : new = v := Option.some.inj hhanded
    exact ⟨w, s, rfl, .inl (List.mem_filterMap.2 ⟨_, he, if_pos rfl⟩)⟩
  | after w new s =>
    obtain rfl : new = v := Option.some.inj hhanded
    exact ⟨w, s, rfl, .inr (List.mem_filterMap.2 ⟨_, he, if_pos rfl⟩)⟩
  | _ => cases hhanded

/-- An event makes nothing of a statement at which it did not happen. -/
theorem Event.idle_of_at? (h : e.at? ≠ some v) :
    e.before? v = none ∧ e.after? v = none ∧ ∀ old, e.keep v old = old := by
  cases e <;> simp_all [Event.at?, Event.before?, Event.after?, Event.keep]

/-- An edit at a statement redirects nothing. -/
theorem Event.redirect_of_at? (h : e.at? = some w) (old : Option Operand) :
    e.redirect v old = old := by
  cases e with
  | visited | substituted => cases h
  | before | after | replaced | deleted => rfl

theorem around_concat_of_ne (h : e.at? ≠ some v) (s : Statement) :
    around (es ++ [e]) (v, s) = around es (v, s) := by
  obtain ⟨hbefore, hafter, hkeep⟩ := Event.idle_of_at? h
  simp [around, befores_concat, afters_concat, kept_concat, hbefore, hafter, hkeep]

theorem flatMap_around_concat {entries : List (Variable × Statement)}
    (h : ∀ entry ∈ entries, e.at? ≠ some entry.1) :
    entries.flatMap (around (es ++ [e])) = entries.flatMap (around es) := by
  induction entries with
  | nil => rfl
  | cons entry entries ih =>
    rw [List.flatMap_cons, List.flatMap_cons, ih fun x hx => h x (List.mem_cons_of_mem _ hx),
      around_concat_of_ne (h entry List.mem_cons_self)]

/-- Of a statement at which nothing happened everything is left, and nothing was added to it. -/
theorem untouched (h : ∀ e ∈ es, e.at? ≠ some v) :
    befores es v = [] ∧ afters es v = [] ∧ ∀ s, kept es v s = some s := by
  induction es using List.reverseRecOn with
  | nil => exact ⟨rfl, rfl, fun _ => rfl⟩
  | append_singleton es e ih =>
    obtain ⟨hbefore, hafter, hkeep⟩ := Event.idle_of_at? (h e (by simp))
    obtain ⟨hbefores, hafters, hkept⟩ := ih fun e' he' => h e' (List.mem_append_left _ he')
    refine ⟨?_, ?_, fun s => ?_⟩
    · rw [befores_concat, hbefores, hbefore]
      rfl
    · rw [afters_concat, hafters, hafter]
      rfl
    · rw [kept_concat, hkept, hkeep]

theorem flatMap_around_untouched {entries : List (Variable × Statement)}
    (h : ∀ e ∈ es, ∀ entry ∈ entries, e.at? ≠ some entry.1) :
    entries.flatMap (around es) = entries := by
  induction entries with
  | nil => rfl
  | cons entry entries ih =>
    obtain ⟨hbefores, hafters, hkept⟩ := untouched fun e he => h e he entry List.mem_cons_self
    rw [List.flatMap_cons, ih fun e he x hx => h e he x (List.mem_cons_of_mem _ hx),
      around, hbefores, hafters, hkept]
    rfl

end Concat

/-! ## Which piece is where -/

/-- The statements of a block that the pass has come to. -/
def visited (p : EditPass) (i : Nat) (body : List (Variable × Statement)) :
    List (Variable × Statement) :=
  if i < p.block then body else body.take (if i = p.block then p.next else 0)

theorem visited_append_unvisited (p : EditPass) (i : Nat) (body : List (Variable × Statement)) :
    p.visited i body ++ p.unvisited i body = body := by
  unfold visited unvisited
  split
  · exact List.append_nil _
  · exact List.take_append_drop _ _

theorem visited_here (p : EditPass) (body : List (Variable × Statement)) :
    p.visited p.block body = body.take p.next := by
  rw [visited, if_neg (Nat.lt_irrefl _), if_pos rfl]

/-- The pass stands at no statement, and all that it has come to is written. -/
structure Idle (g : Graph) (p : EditPass) (es : List Event) : Prop where
  current : p.current = none
  after : p.after = []
  out : ∀ i block, g.blocks[i]? = some block →
    p.out.getD i [] = (p.visited i block.body).flatMap (around es)

/-- The pass stands at the statement of `v`, of which only what comes before is written. -/
structure Visiting (g : Graph) (p : EditPass) (es : List Event) (v : Variable) : Prop where
  current : p.current = some v
  after : p.after = afters es v
  here : ∃ block seen s, g.blocks[p.block]? = some block
    ∧ p.visited p.block block.body = seen ++ [(v, s)]
    ∧ p.out.getD p.block [] = seen.flatMap (around es) ++ befores es v ∧ p.staged = kept es v s
  out : ∀ i block, i ≠ p.block → g.blocks[i]? = some block →
    p.out.getD i [] = (p.visited i block.body).flatMap (around es)

/-- The pass over `g` holds what the events ask for. -/
structure Tracks (g : Graph) (p : EditPass) (es : List Event) : Prop where
  blocks : p.source.blocks = g.blocks
  size_out : p.out.size = g.blocks.size
  next_le : ∀ block, g.blocks[p.block]? = some block → p.next ≤ block.body.length
  /-- Edits are made only at statements that the pass has come to. -/
  touched : ∀ e ∈ es, ∀ v, e.at? = some v →
    ∃ i block, g.blocks[i]? = some block ∧ v ∈ (p.visited i block.body).map Prod.fst
  redirects : ∀ v, p.redirects.get? v = redirectOf es v
  place : Idle g p es ∨ ∃ v, Visiting g p es v

theorem tracks_start (g : Graph) : Tracks g (.start g) [] where
  blocks := rfl
  size_out := by simp [start]
  next_le _ _ := Nat.zero_le _
  touched := nofun
  redirects := Table.get?_empty
  place := by
    refine .inl ⟨rfl, rfl, fun i block _ => ?_⟩
    have hout : (Array.replicate g.blocks.size ([] : List (Variable × Statement))).getD i []
        = [] := by
      rw [Array.getD_eq_getD_getElem?, Array.getElem?_replicate]
      split <;> rfl
    have hvisited : (start g).visited i block.body
        = if i < 0 then block.body else block.body.take (if i = 0 then 0 else 0) := rfl
    rw [hvisited, if_neg (Nat.not_lt_zero i), ite_self, List.take_zero]
    exact hout

/-! ## Moves -/

/-- Leaving a statement completes what is written. -/
theorem Tracks.flush (h : Tracks g p es) : Tracks g p.flush es ∧ Idle g p.flush es := by
  rcases h.place with hidle | ⟨v, hv⟩
  · have hflush : p.flush = p := by rw [EditPass.flush, hidle.current]
    rw [hflush]
    exact ⟨h, hidle⟩
  · obtain ⟨block, seen, s, hblock, hvisited, hout, hstaged⟩ := hv.here
    have hflush : p.flush = { p.write ((p.staged.toList.map fun s => (v, s)) ++ p.after) with
        current := none, staged := none, after := [] } := by rw [EditPass.flush, hv.current]
    have hlt : p.block < p.out.size := by
      rw [h.size_out]
      exact (Array.getElem?_eq_some_iff.1 hblock).1
    have hidle : Idle g p.flush es := by
      rw [hflush]
      refine ⟨rfl, rfl, fun i other hi => ?_⟩
      -- only the block of the visited statement is written to, and all that belongs around it
      by_cases hne : i = p.block
      · subst hne
        obtain rfl := Option.some.inj (hblock.symm.trans hi)
        have hseen : List.flatMap (around es) (p.visited p.block block.body)
            = seen.flatMap (around es) ++ around es (v, s) := by
          rw [hvisited, List.flatMap_append, List.flatMap_singleton]
        refine (getD_write p _ hlt).trans (Eq.trans ?_ hseen.symm)
        rw [hout, hstaged, hv.after, around, List.append_assoc, List.append_assoc]
      · exact (getD_write_of_ne p _ hne).trans (hv.out i other hne hi)
    refine ⟨⟨?_, ?_, ?_, ?_, ?_, .inl hidle⟩, hidle⟩
    all_goals rw [hflush]
    · exact h.blocks
    · exact Array.size_modify.trans h.size_out
    · exact h.next_le
    · exact h.touched
    · exact h.redirects

/-- A statement that the pass has come to stands in its block. -/
theorem mem_body_of_mem_visited {i : Nat} {body : List (Variable × Statement)}
    {entry : Variable × Statement} (h : entry ∈ p.visited i body) : entry ∈ body :=
  p.visited_append_unvisited i body ▸ List.mem_append_left _ h

/-- The statement at which something has happened is one of the graph. -/
theorem Tracks.home (h : Tracks g p es) (he : e ∈ es) (hat : e.at? = some v) :
    ∃ b block s, g.block? b = some block ∧ (v, s) ∈ block.body := by
  obtain ⟨i, block, hi, hvisited⟩ := h.touched e he v hat
  obtain ⟨⟨w, s⟩, hmem, rfl⟩ := List.mem_map.1 hvisited
  exact ⟨⟨i⟩, block, s, hi, mem_body_of_mem_visited hmem⟩

/-- Nothing has happened at a statement that is still to come: it has not been come to, here or
elsewhere. -/
theorem Tracks.untouched_ahead (h : Tracks g p es) (hg : g.Coherent) {i : Nat} {block : Block}
    (hi : g.blocks[i]? = some block) :
    ∀ e ∈ es, ∀ entry ∈ p.unvisited i block.body, e.at? ≠ some entry.1 := by
  rintro e he ⟨v, s⟩ hahead hat
  obtain ⟨j, other, hj, hmem⟩ := h.touched e he v hat
  obtain ⟨⟨w, t⟩, hvisited, rfl⟩ := List.mem_map.1 hmem
  obtain ⟨k, hk⟩ := List.mem_iff_getElem?.1 hvisited
  obtain ⟨l, hl⟩ := List.mem_iff_getElem?.1 hahead
  have hlt := (List.getElem?_eq_some_iff.1 hk).1
  have hother : other.body[k]? = some (w, t) := by
    have hall := congrArg (fun body => body[k]?) (p.visited_append_unvisited j other.body)
    simpa [List.getElem?_append_left hlt, hk] using hall.symm
  have hblock : block.body[(p.visited i block.body).length + l]? = some (w, s) := by
    have hall := congrArg (fun body => body[(p.visited i block.body).length + l]?)
      (p.visited_append_unvisited i block.body)
    simpa [List.getElem?_append_right, hl] using hall.symm
  obtain ⟨hji, hplace⟩ := hg.place_unique (b := ⟨j⟩) (c := ⟨i⟩) hj hother hi hblock
  obtain rfl : j = i := congrArg BlockId.index hji
  obtain rfl := Option.some.inj (hj.symm.trans hi)
  omega

/-- Going through the blocks that have no statement left comes to nothing new. -/
theorem visited_nextBlock {i : Nat} {block : Block} (hi : p.source.blocks[i]? = some block)
    (hend : ∀ body, p.source.blocks[p.block]?.map Block.body = some body → body[p.next]? = none) :
    visited { p with block := p.block + 1, next := 0 } i block.body = p.visited i block.body := by
  unfold visited
  dsimp only
  by_cases hlt : i < p.block
  · rw [if_pos (Nat.lt_succ_of_lt hlt), if_pos hlt]
  · rw [if_neg hlt]
    by_cases heq : i = p.block
    · subst heq
      have hnone := hend block.body (by rw [hi]; rfl)
      rw [if_pos (Nat.lt_succ_self _), if_pos rfl,
        List.take_of_length_le (List.getElem?_eq_none_iff.1 hnone)]
    · rw [if_neg (by omega), if_neg heq, ite_self]

/-- The next statement was not come to before, so nothing has happened at it. -/
theorem Tracks.seek (h : Tracks g p es) (hg : g.Coherent) (hidle : Idle g p es) :
    Tracks g p.seek es := by
  induction p using seek.induct with
  | case1 p hlt v s hnext =>
    rw [EditPass.seek, dif_pos hlt, hnext]
    have hblock : g.blocks[p.block]? = some p.source.blocks[p.block] := by
      rw [← h.blocks]
      exact Array.getElem?_eq_getElem hlt
    have hahead : (v, s) ∈ p.unvisited p.block p.source.blocks[p.block].body :=
      List.mem_iff_getElem?.2 ⟨0, by simpa [unvisited] using hnext⟩
    obtain ⟨hbefores, hafters, hkept⟩ :=
      untouched fun e he => h.untouched_ahead hg hblock e he _ hahead
    -- of the block where it stands the pass has come to one more statement
    have hhere : visited { p with next := p.next + 1, current := some v, staged := some s } p.block
        p.source.blocks[p.block].body
          = p.visited p.block p.source.blocks[p.block].body ++ [(v, s)] := by
      have htake := visited_here { p with next := p.next + 1, current := some v, staged := some s }
        p.source.blocks[p.block].body
      refine htake.trans ?_
      rw [visited_here, List.take_add_one, hnext]
      rfl
    have hother : ∀ i body, i ≠ p.block →
        visited { p with next := p.next + 1, current := some v, staged := some s } i body
          = p.visited i body := by
      intro i body hi
      unfold visited
      dsimp only
      rw [if_neg hi, if_neg hi]
    refine
      { blocks := h.blocks
        size_out := h.size_out
        next_le := fun block hb => ?_
        touched := fun e he w hw => ?_
        redirects := h.redirects
        place := .inr ⟨v, rfl, hidle.after.trans hafters.symm,
          ⟨_, p.visited p.block p.source.blocks[p.block].body, s, hblock, hhere, ?_,
            (hkept s).symm⟩,
          fun i block hi hb => ?_⟩ }
    · obtain rfl := Option.some.inj (hblock.symm.trans hb)
      exact (List.getElem?_eq_some_iff.1 hnext).1
    · obtain ⟨i, block, hi, hmem⟩ := h.touched e he w hw
      refine ⟨i, block, hi, ?_⟩
      by_cases heq : i = p.block
      · subst heq
        obtain rfl := Option.some.inj (hblock.symm.trans hi)
        rw [hhere, List.map_append]
        exact List.mem_append_left _ hmem
      · rw [hother i block.body heq]
        exact hmem
    · rw [hbefores, List.append_nil]
      exact hidle.out p.block _ hblock
    · rw [hother i block.body hi]
      exact hidle.out i block hb
  | case2 p hlt hnext ih =>
    rw [EditPass.seek, dif_pos hlt, hnext]
    have hsame : ∀ i block, g.blocks[i]? = some block →
        visited { p with block := p.block + 1, next := 0 } i block.body
          = p.visited i block.body := by
      intro i block hi
      refine visited_nextBlock (h.blocks ▸ hi) fun body hbody => ?_
      rw [Array.getElem?_eq_getElem hlt, Option.map_some] at hbody
      exact Option.some.inj hbody ▸ hnext
    have hidle' : Idle g { p with block := p.block + 1, next := 0 } es :=
      ⟨hidle.current, hidle.after, fun i block hi =>
        (hidle.out i block hi).trans (by rw [hsame i block hi])⟩
    refine ih ?_ hidle'
    refine ⟨h.blocks, h.size_out, fun _ _ => Nat.zero_le _, fun e he w hw => ?_, h.redirects,
      .inl hidle'⟩
    obtain ⟨i, block, hi, hmem⟩ := h.touched e he w hw
    exact ⟨i, block, hi, (hsame i block hi).symm ▸ hmem⟩
  | case3 p hlt =>
    rw [EditPass.seek, dif_neg hlt]
    exact h

/-! ## Edits -/

/-- An event that is at no statement leaves everything where it is. -/
theorem Tracks.unplaced (h : Tracks g p es) (hat : e.at? = none) (hblocks : p'.source = p.source)
    (hout : p'.out = p.out) (hblock : p'.block = p.block) (hnext : p'.next = p.next)
    (hcurrent : p'.current = p.current) (hstaged : p'.staged = p.staged)
    (hafter : p'.after = p.after)
    (hredirects : ∀ v, p'.redirects.get? v = redirectOf (es ++ [e]) v) :
    Tracks g p' (es ++ [e]) := by
  -- the event is at no statement, so `around` is the same with it and without it
  have hnot : ∀ v, e.at? ≠ some v := fun v => by rw [hat]; nofun
  have hvisited : p'.visited = p.visited := by
    funext i body
    rw [visited, visited, hblock, hnext]
  have haround : ∀ entries : List (Variable × Statement),
      entries.flatMap (around (es ++ [e])) = entries.flatMap (around es) :=
    fun _ => flatMap_around_concat fun entry _ => hnot entry.1
  refine
    { blocks := by rw [hblocks, h.blocks]
      size_out := by rw [hout, h.size_out]
      next_le := by rw [hblock, hnext]; exact h.next_le
      touched := fun e' he' v hv => ?_
      redirects := hredirects
      place := ?_ }
  · rw [hvisited]
    rcases List.mem_append.1 he' with he' | he'
    · exact h.touched e' he' v hv
    · rw [List.mem_singleton.1 he', hat] at hv
      cases hv
  · rcases h.place with hidle | ⟨v, hv⟩
    · refine .inl ⟨hcurrent.trans hidle.current, hafter.trans hidle.after, fun i block hi => ?_⟩
      rw [hout, hvisited, haround]
      exact hidle.out i block hi
    · obtain ⟨hbefore, hafter', hkeep⟩ := Event.idle_of_at? (hnot v)
      obtain ⟨block, seen, s, hb, hseen, hwritten, hstaged'⟩ := hv.here
      refine .inr ⟨v, hcurrent.trans hv.current, ?_, ⟨block, seen, s, ?_⟩,
        fun i other hi hother => ?_⟩
      · rw [hafter, hv.after, afters_concat, hafter']
        exact (List.append_nil _).symm
      · rw [hblock, hvisited, hout, hstaged, haround, befores_concat, hbefore, kept_concat, hkeep]
        exact ⟨hb, hseen, hwritten.trans (congrArg _ (List.append_nil _).symm), hstaged'⟩
      · rw [hout, hvisited, haround]
        exact hv.out i other (hblock ▸ hi) hother

/-- An edit at the visited statement touches no other one, because no other one has its variable. -/
theorem Tracks.edited (h : Tracks g p es) (hg : g.Coherent) (hv : Visiting g p es v)
    (hat : e.at? = some v) (hblocks : p'.source.blocks = p.source.blocks)
    (hsize : p'.out.size = p.out.size) (hblock : p'.block = p.block) (hnext : p'.next = p.next)
    (hcurrent : p'.current = p.current) (hredirects : p'.redirects = p.redirects)
    (hout : ∀ i, i ≠ p.block → p'.out.getD i [] = p.out.getD i [])
    (hhere : p.block < p.out.size →
      p'.out.getD p.block [] = p.out.getD p.block [] ++ (e.before? v).toList)
    (hstaged : p'.staged = e.keep v p.staged) (hafter : p'.after = p.after ++ (e.after? v).toList) :
    Tracks g p' (es ++ [e]) := by
  obtain ⟨block, seen, s, hb, hseen, hwritten, hstaged'⟩ := hv.here
  have hvisited : p'.visited = p.visited := by
    funext i body
    rw [visited, visited, hblock, hnext]
  have hlast : block.body[seen.length]? = some (v, s) := by
    have hall := congrArg (fun l => l[seen.length]?) (p.visited_append_unvisited p.block block.body)
    simpa [hseen] using hall.symm
  -- the statements before it, and those of the other blocks, have other variables
  have hbefore : ∀ entry ∈ seen, e.at? ≠ some entry.1 := by
    rintro ⟨w, t⟩ hmem heq
    obtain ⟨j, hj⟩ := List.mem_iff_getElem?.1 hmem
    have hlt := (List.getElem?_eq_some_iff.1 hj).1
    have hall := congrArg (fun l => l[j]?) (p.visited_append_unvisited p.block block.body)
    simp only [hseen, List.append_assoc, List.getElem?_append_left hlt, hj] at hall
    obtain rfl : v = w := Option.some.inj (hat.symm.trans heq)
    have := (hg.place_unique (b := ⟨p.block⟩) (c := ⟨p.block⟩) hb hall.symm hb hlast).2
    omega
  have hother : ∀ i other, i ≠ p.block → g.blocks[i]? = some other →
      ∀ entry ∈ p.visited i other.body, e.at? ≠ some entry.1 := by
    rintro i other hi hother ⟨w, t⟩ hmem heq
    obtain rfl : v = w := Option.some.inj (hat.symm.trans heq)
    obtain ⟨j, hj⟩ := List.mem_iff_getElem?.1 (mem_body_of_mem_visited hmem)
    exact hi (congrArg BlockId.index
      (hg.place_unique (b := ⟨i⟩) (c := ⟨p.block⟩) hother hj hb hlast).1)
  have hlt : p.block < p.out.size := by
    rw [h.size_out]
    exact (Array.getElem?_eq_some_iff.1 hb).1
  refine
    { blocks := hblocks.trans h.blocks
      size_out := hsize.trans h.size_out
      next_le := by rw [hblock, hnext]; exact h.next_le
      touched := fun e' he' w hw => ?_
      redirects := fun w => ?_
      place :=
        .inr ⟨v, hcurrent.trans hv.current, ?_, ⟨block, seen, s, ?_⟩, fun i other hi hi' => ?_⟩ }
  · rw [hvisited]
    rcases List.mem_append.1 he' with he' | he'
    · exact h.touched e' he' w hw
    · rw [List.mem_singleton.1 he', hat] at hw
      obtain rfl := Option.some.inj hw
      exact ⟨p.block, block, hb, by simp [hseen]⟩
  · rw [hredirects, h.redirects, redirectOf_concat, Event.redirect_of_at? hat]
  · rw [hafter, hv.after, afters_concat]
  · rw [hblock, hvisited, hhere hlt, hstaged, flatMap_around_concat hbefore, befores_concat,
      kept_concat, ← hstaged', hwritten, List.append_assoc]
    exact ⟨hb, hseen, rfl, rfl⟩
  · rw [hblock] at hi
    rw [hout i hi, hvisited, flatMap_around_concat (hother i other hi hi')]
    exact hv.out i other hi hi'

/-- Where the pass stands at a statement, that is the one it is visiting. -/
theorem Tracks.visiting (h : Tracks g p es) (hcurrent : p.current = some v) :
    Visiting g p es v := by
  rcases h.place with hidle | ⟨w, hw⟩
  · rw [hidle.current] at hcurrent
    cases hcurrent
  · obtain rfl : w = v := Option.some.inj (hw.current.symm.trans hcurrent)
    exact hw

/-- **Every call keeps track**: what an accepted call does to the pass is what its event asks
for. -/
theorem Tracks.step (h : Tracks g p es) (hg : g.Coherent) (hstep : Step p p' e) :
    Tracks g p' (es ++ [e]) := by
  -- the four calls at the visited statement differ in what they add; the two others are at none
  cases hstep with
  | advance =>
    obtain ⟨hflush, hidle⟩ := h.flush
    have hseek : Tracks g p.advance es := hflush.seek hg hidle
    exact hseek.unplaced rfl rfl rfl rfl rfl rfl rfl rfl fun v => by
      rw [redirectOf_concat]
      exact hseek.redirects v
  | @before _ v new s hinsert =>
    obtain ⟨hcheck, rfl, rfl⟩ := insertBefore_eq_ok.1 hinsert
    have hv := h.visiting (check_eq_ok.1 hcheck).1
    have hnew : ((Event.before v p.source.fresh s).before? v).toList = [(p.source.fresh, s)] := by
      simp [Event.before?]
    refine h.edited hg hv rfl rfl Array.size_modify rfl rfl rfl rfl (fun i hi => ?_)
      (fun hlt => ?_) rfl (List.append_nil _).symm
    · exact getD_write_of_ne p.fresh.1 _ hi
    · rw [hnew]
      exact getD_write p.fresh.1 _ hlt
  | @after _ v new s hinsert =>
    obtain ⟨hcheck, rfl, rfl⟩ := insertAfter_eq_ok.1 hinsert
    have hv := h.visiting (check_eq_ok.1 hcheck).1
    refine h.edited hg hv rfl rfl rfl rfl rfl rfl rfl (fun _ _ => rfl)
      (fun _ => (List.append_nil _).symm)
      rfl ?_
    simp [Event.after?]
  | @replaced _ v s hreplace =>
    obtain ⟨hcheck, rfl⟩ := replace_eq_ok.1 hreplace
    have hv := h.visiting (check_eq_ok.1 hcheck).1
    refine h.edited hg hv rfl rfl rfl rfl rfl rfl rfl (fun _ _ => rfl)
      (fun _ => (List.append_nil _).symm)
      ?_ (List.append_nil _).symm
    simp [Event.keep]
  | @deleted _ v old hdelete =>
    obtain ⟨hcurrent, -, rfl⟩ := delete_eq_ok.1 hdelete
    refine h.edited hg (h.visiting hcurrent) rfl rfl rfl rfl rfl rfl rfl (fun _ _ => rfl)
      (fun _ => (List.append_nil _).symm) ?_ (List.append_nil _).symm
    simp [Event.keep]
  | @substituted _ v op hsubstitute =>
    obtain ⟨-, -, rfl⟩ := substitute_eq_ok.1 hsubstitute
    refine h.unplaced rfl rfl rfl rfl rfl rfl rfl rfl fun w => ?_
    rw [Table.get?_insert, h.redirects, redirectOf_concat]
    rfl

theorem Recorded.tracks (h : Recorded g p es) (hg : g.Coherent) : Tracks g p es := by
  induction h with
  | start => exact tracks_start g
  | step _ hstep ih => exact ih.step hg hstep

end EditPass

end Interpose
