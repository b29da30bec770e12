import Interpose.EditBuffer
import Interpose.Proofs.Pass.Preview

/-!
# Passes in place and as a whole

A pass that works in place holds, at every moment, what `EditPass` says: the same output, the same
position, the same visited statement and redirects. Its graph is the one passed over with
placeholders for the statements that are not ahead any more, and the places that it notes are those
of what is written. That is `Holds`, and one theorem says that every call keeps it, answers as the
call of the pass does, and when it is refused, leaves the buffer as it was.

The placeholders are not seen: whatever reads the graph reads what is ahead. That a place which is
noted leads to the same statement as a search of the output needs more, namely that no variable is
written twice.
-/

set_option autoImplicit false

namespace Interpose

open InPlace

namespace EditPass

variable {g : Graph} {p : EditPass} {es : List Event} {v : Variable} {s : Statement}

/-- The body of a block with placeholders for the statements that the pass has come to. -/
def emptiedBody (p : EditPass) (i : Nat) (body : List (Variable × Statement)) :
    List (Variable × Statement) :=
  body.mapIdx fun k e => if p.isAhead (.statement ⟨i⟩ k) then e else (e.1, EditBuffer.placeholder)

/-- The pass without the statements that it has come to. -/
def emptied (p : EditPass) : EditPass :=
  { p with
    source.blocks :=
      p.source.blocks.mapIdx fun i b => { b with body := p.emptiedBody i b.body } }

/-! ## Placeholders -/

theorem getElem?_emptiedBody {i k : Nat} {body : List (Variable × Statement)}
    (h : p.isAhead (.statement ⟨i⟩ k) = true) : (p.emptiedBody i body)[k]? = body[k]? := by
  rw [emptiedBody, List.getElem?_mapIdx]
  simp only [h, if_true]
  exact Option.map_id'

/-- The next statement is ahead. -/
theorem getElem?_emptiedBody_next (p : EditPass) (body : List (Variable × Statement)) :
    (p.emptiedBody p.block body)[p.next]? = body[p.next]? :=
  getElem?_emptiedBody (isAhead_statement.2 (.inr ⟨rfl, Nat.le_refl _⟩))

/-- What stands in the place of a statement depends only on whether it is ahead. -/
theorem emptiedBody_congr {q : EditPass} {i : Nat} {body : List (Variable × Statement)}
    (h : ∀ k < body.length, p.isAhead (.statement ⟨i⟩ k) = true
      ↔ q.isAhead (.statement ⟨i⟩ k) = true) :
    p.emptiedBody i body = q.emptiedBody i body := by
  refine List.mapIdx_eq_mapIdx_iff.2 fun k hk => ?_
  simp only [h k hk]

theorem getElem?_emptied (p : EditPass) (i : Nat) : p.emptied.source.blocks[i]?
    = (p.source.blocks[i]?).map fun b => { b with body := p.emptiedBody i b.body } :=
  Array.getElem?_mapIdx

/-- What was not visited is still there. -/
theorem unvisited_emptiedBody (p : EditPass) (i : Nat) (body : List (Variable × Statement)) :
    p.unvisited i (p.emptiedBody i body) = p.unvisited i body := by
  unfold unvisited
  split
  · rfl
  · next hlt =>
    refine List.ext_getElem? fun k => ?_
    rw [List.getElem?_drop, List.getElem?_drop]
    refine getElem?_emptiedBody (isAhead_statement.2 ?_)
    split
    · next heq => exact .inr ⟨heq.symm, Nat.le_add_right _ _⟩
    · next hne => exact .inl (by omega)

/-- Taking the next statement out leaves a placeholder more. -/
theorem emptied_take {block : Block} (hblock : p.source.blocks[p.block]? = some block)
    (hnext : block.body[p.next]? = some (v, s)) :
    (p.emptied.source.modifyBlock ⟨p.block⟩ fun b =>
        { b with body := b.body.set p.next (v, EditBuffer.placeholder) })
      = ({ p with next := p.next + 1 } : EditPass).emptied.source := by
  have hbody : (p.emptiedBody p.block block.body).set p.next (v, EditBuffer.placeholder)
      = ({ p with next := p.next + 1 } : EditPass).emptiedBody p.block block.body := by
    refine List.ext_getElem? fun k => ?_
    simp only [emptiedBody, List.getElem?_set, List.getElem?_mapIdx, List.length_mapIdx,
      isAhead_statement, Nat.lt_irrefl, true_and, false_or]
    by_cases hk : p.next = k
    · subst hk
      rw [if_pos rfl, if_pos (List.getElem?_eq_some_iff.1 hnext).1, hnext, Option.map_some,
        if_neg (by omega)]
    · rw [if_neg hk]
      refine Option.map_congr fun e _ => if_congr ?_ rfl rfl
      omega
  have hblocks : p.emptied.source.blocks.modify p.block (fun b =>
        { b with body := b.body.set p.next (v, EditBuffer.placeholder) })
      = ({ p with next := p.next + 1 } : EditPass).emptied.source.blocks := by
    refine Array.ext_getElem? fun i => ?_
    rw [Array.getElem?_modify, getElem?_emptied, getElem?_emptied]
    split
    · next hi =>
      subst hi
      simp only [hblock, Option.map_some, hbody]
    · next hi =>
      refine Option.map_congr fun b _ => ?_
      rw [emptiedBody_congr (q := { p with next := p.next + 1 }) fun k _ => by
        simp only [isAhead_statement, hi, false_and]]
  exact congrArg (fun blocks => { p.source with blocks }) hblocks

/-- Leaving a block takes nothing out. -/
theorem emptied_leave (hnext : ∀ block, p.source.blocks[p.block]? = some block →
    block.body[p.next]? = none) :
    { p.emptied with block := p.block + 1, next := 0 }
      = ({ p with block := p.block + 1, next := 0 } : EditPass).emptied := by
  have hblocks : p.emptied.source.blocks
      = ({ p with block := p.block + 1, next := 0 } : EditPass).emptied.source.blocks := by
    refine Array.ext_getElem? fun i => ?_
    rw [getElem?_emptied, getElem?_emptied]
    refine Option.map_congr fun b hb => ?_
    rw [emptiedBody_congr (q := { p with block := p.block + 1, next := 0 }) fun k hk => ?_]
    simp only [isAhead_statement]
    constructor
    · rintro (hlt | ⟨rfl, hle⟩)
      · omega
      · -- what would be ahead here does not exist
        have hlength := List.getElem?_eq_none_iff.1 (hnext b hb)
        omega
    · omega
  exact congrArg (fun blocks =>
    ({ p with source.blocks := blocks, block := p.block + 1, next := 0 } : EditPass)) hblocks

theorem flush_emptied (p : EditPass) : p.emptied.flush = p.flush.emptied := by
  have hcurrent : p.emptied.current = p.current := rfl
  rcases hc : p.current with _ | v
  · rw [EditPass.flush, hcurrent, EditPass.flush, hc]
  · rw [EditPass.flush, hcurrent, EditPass.flush, hc]
    rfl

/-- **The result does not see the placeholders.** -/
theorem finish_emptied (p : EditPass) : p.emptied.finish = p.finish := by
  have hassembled : p.emptied.assembled = p.assembled := by
    rw [assembled, assembled, flush_emptied]
    have hblocks : p.flush.emptied.source.blocks.mapIdx (fun i b =>
          { b with body := p.flush.out.getD i [] ++ p.flush.unvisited i b.body })
        = p.flush.source.blocks.mapIdx fun i b =>
          { b with body := p.flush.out.getD i [] ++ p.flush.unvisited i b.body } := by
      refine Array.ext_getElem? fun i => ?_
      rw [Array.getElem?_mapIdx, Array.getElem?_mapIdx, getElem?_emptied, Option.map_map]
      refine Option.map_congr fun b _ => ?_
      simp only [Function.comp_apply, unvisited_emptiedBody]
    exact congrArg (fun blocks => { p.flush.source with blocks }) hblocks
  rw [EditPass.finish, EditPass.finish, hassembled]
  rfl

/-- What is ahead does not see them either. -/
theorem get?_emptied {v : Variable} {site : Site} (hv : p.source.site? v = some site)
    (hahead : p.isAhead site = true) : p.emptied.source.get? v = p.source.get? v := by
  have hsite : p.emptied.source.site? v = some site := hv
  rw [Graph.get?, Graph.get?, hsite, hv]
  cases site with
  | param b i => rfl
  | deleted => rfl
  | statement b i =>
    show (do let block ← p.emptied.source.blocks[b.index]?; return (← block.body[i]?).2) = _
    rw [getElem?_emptied]
    show _ = (do let block ← p.source.blocks[b.index]?; return (← block.body[i]?).2)
    cases p.source.blocks[b.index]? with
    | none => rfl
    | some block =>
      exact congrArg (fun e : Option _ => e.bind fun e => some e.2) (getElem?_emptiedBody hahead)

theorem write_nil (p : EditPass) : p.write [] = p := by
  have hout : p.out.modify p.block (· ++ []) = p.out := by
    refine Array.ext_getElem? fun i => ?_
    rw [Array.getElem?_modify]
    split <;> simp
  rw [write, hout]

theorem write_write (p : EditPass) (entries entries' : List (Variable × Statement)) :
    (p.write entries).write entries' = p.write (entries ++ entries') := by
  have hout : (p.out.modify p.block (· ++ entries)).modify p.block (· ++ entries')
      = p.out.modify p.block (· ++ (entries ++ entries')) := by
    refine Array.ext_getElem? fun i => ?_
    rw [Array.getElem?_modify, Array.getElem?_modify, Array.getElem?_modify]
    split
    · rw [Option.map_map]
      exact Option.map_congr fun written _ => List.append_assoc ..
    · rfl
  exact congrArg (fun out => { p with out }) hout

end EditPass

namespace EditBuffer

open EditPass (Event Move)

variable {g : Graph} {p p' : EditPass} {q q' : EditBuffer} {e : Event} {es : List Event}
  {v : Variable} {s : Statement}

/-- The places are those of what is written: each of them leads to its variable, and no variable is
left out. -/
structure Notes (emitted : Table Variable (Nat × Nat)) (out : Array (List (Variable × Statement))) :
    Prop where
  leads : ∀ v b i, emitted.get? v = some (b, i) → ∃ s, (out.getD b [])[i]? = some (v, s)
  covers : ∀ v s b, (v, s) ∈ out.getD b [] → emitted.get? v ≠ none

/-- The buffer holds the pass. -/
structure Holds (q : EditBuffer) (p : EditPass) : Prop where
  pass : q.toEditPass = p.emptied
  notes : Notes q.emitted p.out
  size_out : p.out.size = p.source.blocks.size
  inside : p.current ≠ none → p.block < p.out.size

theorem Holds.eq (h : q.Holds p) : ∃ emitted, q = ⟨p.emptied, emitted⟩ :=
  ⟨q.emitted, congrArg (fun pass => EditBuffer.mk pass q.emitted) h.pass⟩

theorem Holds.current (h : q.Holds p) : q.current = p.current :=
  (congrArg EditPass.current h.pass : _ = p.emptied.current)

theorem Holds.staged (h : q.Holds p) : q.staged = p.staged :=
  (congrArg EditPass.staged h.pass : _ = p.emptied.staged)

theorem Holds.after (h : q.Holds p) : q.after = p.after :=
  (congrArg EditPass.after h.pass : _ = p.emptied.after)

theorem holds_start (g : Graph) : (start g).Holds (.start g) where
  pass := by
    have hblocks : (EditPass.start g).emptied.source.blocks = g.blocks := by
      refine Array.ext_getElem? fun i => ?_
      rw [EditPass.getElem?_emptied]
      refine (Option.map_congr fun b _ => ?_).trans Option.map_id'
      have hbody : (EditPass.start g).emptiedBody i b.body = b.body :=
        List.ext_getElem? fun k => EditPass.getElem?_emptiedBody (EditPass.isAhead_statement.2 (by
          simp only [EditPass.start]
          omega))
      rw [hbody]
    exact (congrArg (fun blocks => ({ EditPass.start g with source.blocks := blocks } : EditPass))
      hblocks).symm
  notes := by
    refine ⟨fun v b i h => absurd (h.symm.trans (Table.get?_empty v)) (Option.some_ne_none _),
      fun v s b h => ?_⟩
    simp only [EditPass.start, Array.getD_eq_getD_getElem?, Array.getElem?_replicate] at h
    split at h <;> cases h
  size_out := by simp [EditPass.start]
  inside h := absurd rfl h

/-! ## Writing -/

/-- The place of what is written last is noted. -/
theorem Notes.put {emitted : Table Variable (Nat × Nat)} (h : Notes emitted p.out)
    (hlt : p.block < p.out.size) (v : Variable) (s : Statement) :
    Notes (emitted.insert v (p.block, (p.out.getD p.block []).length)) (p.write [(v, s)]).out := by
  have hhere := EditPass.getD_write p [(v, s)] hlt
  have hother : ∀ b, b ≠ p.block → (p.write [(v, s)]).out.getD b [] = p.out.getD b [] :=
    fun b => EditPass.getD_write_of_ne p [(v, s)]
  refine ⟨fun w b i hw => ?_, fun w t b hmem => ?_⟩
  · rw [Table.get?_insert] at hw
    by_cases hvw : v = w
    · rw [if_pos hvw] at hw
      obtain ⟨rfl, rfl⟩ := Prod.mk.inj (Option.some.inj hw)
      exact ⟨s, by rw [hhere, List.getElem?_concat_length, hvw]⟩
    · rw [if_neg hvw] at hw
      obtain ⟨t, ht⟩ := h.leads w b i hw
      refine ⟨t, ?_⟩
      by_cases hb : b = p.block
      · subst hb
        rw [hhere, List.getElem?_append_left (List.getElem?_eq_some_iff.1 ht).1, ht]
      · rw [hother b hb, ht]
  · rw [Table.get?_insert]
    split
    · exact Option.some_ne_none _
    · next hvw =>
      refine h.covers w t b ?_
      by_cases hb : b = p.block
      · subst hb
        rw [hhere] at hmem
        rcases List.mem_append.1 hmem with hold | hnew
        · exact hold
        · cases List.mem_singleton.1 hnew
          exact absurd rfl hvw
      · rwa [hother b hb] at hmem

theorem Holds.put (h : q.Holds p) (hlt : p.block < p.out.size) (e : Variable × Statement) :
    (q.put e).Holds (p.write [e]) := by
  obtain ⟨emitted, rfl⟩ := h.eq
  exact ⟨rfl, h.notes.put hlt e.1 e.2, (Array.size_modify).trans h.size_out, fun hc => by
    rw [EditPass.write, Array.size_modify]
    exact hlt⟩

theorem Holds.on_forM_emit (h : q.Holds p) (hlt : p.block < p.out.size)
    (entries : List (Variable × Statement)) :
    ∃ q', (entries.forM emit).on q = (.ok (), q') ∧ q'.Holds (p.write entries) := by
  induction entries generalizing q p with
  | nil => exact ⟨q, rfl, p.write_nil.symm ▸ h⟩
  | cons e entries ih =>
    have hlt' : (p.write [e]).block < (p.write [e]).out.size := by
      rw [EditPass.write, Array.size_modify]
      exact hlt
    obtain ⟨q', hrun, hq'⟩ := ih (h.put hlt e) hlt'
    rw [EditPass.write_write] at hq'
    exact ⟨q', by rw [on_forM_cons, on_bind, emit, on_modify]; exact hrun, hq'⟩

/-- A change that leaves the blocks, the output and the position. -/
theorem Holds.change (h : q.Holds p) (f : EditPass → EditPass)
    (hemptied : f p.emptied = (f p).emptied) (hblocks : (f p).source.blocks = p.source.blocks)
    (hout : (f p).out = p.out) (hinside : (f p).current ≠ none → (f p).block < p.out.size) :
    EditBuffer.Holds { q with toEditPass := f q.toEditPass } (f p) where
  pass := (congrArg f h.pass).trans hemptied
  notes := hout ▸ h.notes
  size_out := by rw [hout, hblocks, h.size_out]
  inside := hout ▸ hinside

/-! ## Moving on -/

theorem Holds.on_flush (h : q.Holds p) : ∃ q', flush.on q = (.ok (), q') ∧ q'.Holds p.flush := by
  rcases hc : p.current with _ | v
  · have hflush : p.flush = p := by rw [EditPass.flush, hc]
    have hleft : ({ q with current := none } : EditBuffer) = q := by rw [← hc, ← h.current]
    refine ⟨q, ?_, hflush.symm ▸ h⟩
    rw [flush, on_bind, on_modifyGet, h.current, hc, hleft]
    rfl
  · have hlt : p.block < p.out.size := h.inside (by rw [hc]; exact Option.some_ne_none v)
    -- the statement is left and what is staged is taken before anything is written
    have hleft : EditBuffer.Holds { q with current := none, staged := none } _ :=
      h.change (fun p => { p with current := none, staged := none }) rfl rfl rfl fun hnone =>
        absurd rfl hnone
    obtain ⟨q₁, hkept, hq₁⟩ := hleft.on_forM_emit hlt (p.staged.toList.map fun s => (v, s))
    have hleft₁ : EditBuffer.Holds { q₁ with after := [] } _ :=
      hq₁.change (fun p => { p with after := [] }) rfl rfl rfl fun hnone => absurd rfl hnone
    obtain ⟨q₂, hrun, hq₂⟩ := hleft₁.on_forM_emit (by simpa [EditPass.write] using hlt) q₁.after
    refine ⟨q₂, ?_, ?_⟩
    · have hone : ∀ (staged : Option Statement) (q : EditBuffer),
          (staged.forM fun s => emit (v, s)).on q
            = ((staged.toList.map fun s => (v, s)).forM emit).on q := by
        rintro (_ | s) q <;> rfl
      simp only [flush, on_bind, on_modifyGet, h.current, hc, h.staged, hone, hkept]
      exact hrun
    · have hflush : p.flush = { p.write ((p.staged.toList.map fun s => (v, s)) ++ p.after) with
          current := none, staged := none, after := [] } := by rw [EditPass.flush, hc]
      rw [hflush, ← EditPass.write_write]
      rw [hq₁.after] at hq₂
      exact hq₂

theorem seek_of_some {block : Block} (hblock : q.source.blocks[q.block]? = some block)
    (hnext : block.body[q.next]? = some (v, s)) : q.seek = { q with
      source :=
        q.source.modifyBlock ⟨q.block⟩ fun b =>
          { b with body := b.body.set q.next (v, placeholder) }
      next := q.next + 1
      current := some v
      staged := some s } := by
  obtain ⟨hlt, rfl⟩ := Array.getElem?_eq_some_iff.1 hblock
  rw [seek, dif_pos hlt, hnext]

theorem seek_of_none {block : Block} (hblock : q.source.blocks[q.block]? = some block)
    (hnext : block.body[q.next]? = none) :
    q.seek = seek { q with block := q.block + 1, next := 0 } := by
  obtain ⟨hlt, rfl⟩ := Array.getElem?_eq_some_iff.1 hblock
  rw [seek, dif_pos hlt, hnext]

theorem Holds.seek (h : q.Holds p) (hidle : p.current = none) : q.seek.Holds p.seek := by
  induction p using EditPass.seek.induct generalizing q with
  | case1 p hlt v s hnext =>
    have hblock := Array.getElem?_eq_getElem hlt
    obtain ⟨emitted, rfl⟩ := h.eq
    have hblock' := (p.getElem?_emptied p.block).trans (congrArg _ hblock)
    have hnext' := (p.getElem?_emptiedBody_next _).trans hnext
    rw [seek_of_some (q := ⟨p.emptied, emitted⟩) hblock' hnext', EditPass.seek, dif_pos hlt, hnext]
    refine ⟨?_, h.notes, h.size_out, fun _ => h.size_out.symm ▸ hlt⟩
    exact congrArg (fun source =>
      ({ p with
        source := source, next := p.next + 1, current := some v, staged := some s } : EditPass))
      (EditPass.emptied_take hblock hnext)
  | case2 p hlt hnext ih =>
    have hblock := Array.getElem?_eq_getElem hlt
    obtain ⟨emitted, rfl⟩ := h.eq
    have hblock' := (p.getElem?_emptied p.block).trans (congrArg _ hblock)
    have hnext' := (p.getElem?_emptiedBody_next _).trans hnext
    rw [seek_of_none (q := ⟨p.emptied, emitted⟩) hblock' hnext', EditPass.seek, dif_pos hlt, hnext]
    refine ih ⟨EditPass.emptied_leave fun block hb => ?_, h.notes, h.size_out,
      fun hc => absurd hidle hc⟩ hidle
    cases hblock.symm.trans hb
    exact hnext
  | case3 p hlt =>
    obtain ⟨emitted, rfl⟩ := h.eq
    have hsize : p.emptied.source.blocks.size = p.source.blocks.size := Array.size_mapIdx
    rw [EditBuffer.seek, dif_neg (by rw [hsize]; exact hlt), EditPass.seek, dif_neg hlt]
    exact h

/-! ## Calls -/

section Calls

variable {α β : Type} {x : InPlace EditBuffer α} {r : Except GraphError (EditPass × α)}

/-- The call comes to what the call of the pass makes and answers, or fails with it and leaves the
buffer. -/
def ComesTo (q : EditBuffer) (x : InPlace EditBuffer α) (r : Except GraphError (EditPass × α)) :
    Prop :=
  match r with
  | .ok (p', a) => ∃ q', x.on q = (.ok a, q') ∧ q'.Holds p'
  | .error error => x.on q = (.error error, q)

/-- A check that comes first. -/
theorem ComesTo.ask {f : EditBuffer → Except GraphError Unit} (h : f q = .ok () → ComesTo q x r) :
    ComesTo q (do InPlace.ask f; x) (do f q; r) := by
  rcases hf : f q with error | _
  · show (InPlace.ask f >>= fun _ => x).on q = (.error error, q)
    rw [on_bind, on_ask, hf]
  · have hrun : (InPlace.ask f >>= fun _ => x).on q = x.on q := by rw [on_bind, on_ask, hf]
    have hx := h hf
    unfold ComesTo at hx ⊢
    rw [hrun]
    exact hx

theorem ComesTo.answer (h : ComesTo q x r) (F : α → β) :
    ComesTo q (x >>= fun a => pure (F a)) (r.map fun (p', a) => (p', F a)) := by
  rcases r with error | ⟨p', a⟩
  · show (x >>= fun a => pure (F a)).on q = (.error error, q)
    rw [on_bind, (h : x.on q = _)]
  · obtain ⟨q', hrun, hq'⟩ := h
    exact ⟨q', by rw [on_bind, hrun]; rfl, hq'⟩

theorem Holds.on_advance (h : q.Holds p) :
    ComesTo q advance (.ok (p.advance, p.advance.current)) := by
  obtain ⟨q', hrun, hq'⟩ := h.on_flush
  have hseek := hq'.seek p.current_flush
  refine ⟨q'.seek, ?_, hseek⟩
  rw [advance, on_bind, hrun, EditPass.advance, ← hseek.current]
  rfl

theorem Holds.on_insertBefore (h : q.Holds p) (v : Variable) (s : Statement) :
    ComesTo q (insertBefore v s) (p.insertBefore v s) := by
  obtain ⟨emitted, rfl⟩ := h.eq
  refine ComesTo.ask fun hcheck => ?_
  have hcurrent : p.current = some v := (EditPass.check_eq_ok.1 hcheck).1
  have hlt := h.inside (by rw [hcurrent]; exact Option.some_ne_none v)
  have hfresh := h.change (fun p => p.fresh.1) rfl rfl rfl h.inside
  exact ⟨_, rfl, hfresh.put hlt (p.source.fresh, s)⟩

theorem Holds.on_insertAfter (h : q.Holds p) (v : Variable) (s : Statement) :
    ComesTo q (insertAfter v s) (p.insertAfter v s) := by
  obtain ⟨emitted, rfl⟩ := h.eq
  refine ComesTo.ask fun _ => ⟨_, rfl, ?_⟩
  exact h.change (fun p => { p.fresh.1 with after := p.after ++ [(p.source.fresh, s)] })
    rfl rfl rfl h.inside

theorem Holds.on_replace (h : q.Holds p) (v : Variable) (s : Statement) :
    ComesTo q (replace v s) ((p.replace v s).map (·, ())) := by
  obtain ⟨emitted, rfl⟩ := h.eq
  have hmap : (p.replace v s).map (·, ()) = (do
      p.check v s true
      .ok ({ p with deleted := p.deleted.filter (· ≠ v), staged := some s }, ())) := by
    rw [EditPass.replace]
    cases p.check v s true <;> rfl
  rw [hmap]
  refine ComesTo.ask fun _ => ⟨_, rfl, ?_⟩
  exact h.change (fun p => { p with deleted := p.deleted.filter (· ≠ v), staged := some s })
    rfl rfl rfl h.inside

theorem Holds.on_delete (h : q.Holds p) (v : Variable) : ComesTo q (delete v) (p.delete v) := by
  obtain ⟨emitted, rfl⟩ := h.eq
  refine ComesTo.ask fun _ => ?_
  have hstaged : p.emptied.staged = p.staged := rfl
  rcases hs : p.staged with _ | s
  · -- what is taken here is nothing, so the buffer is as it was
    have htaken : ({ EditBuffer.mk p.emptied emitted with staged := none } : EditBuffer)
      = ⟨p.emptied, emitted⟩ := by
      rw [← hs, ← hstaged]
    show InPlace.on _ _ = (.error (.unknownVariable v), _)
    simp only [on_bind, on_modifyGet, hstaged, hs, on_throw]
    exact congrArg (Prod.mk _) htaken
  · refine ⟨_, ?_, h.change (fun p => { p with staged := none, deleted := v :: p.deleted })
      rfl rfl rfl h.inside⟩
    simp only [on_bind, on_modifyGet, hstaged, hs, on_modify, on_pure]

theorem Holds.on_substitute (h : q.Holds p) (v : Variable) (op : Operand) :
    ComesTo q (substitute v op) ((p.substitute v op).map (·, ())) := by
  obtain ⟨emitted, rfl⟩ := h.eq
  have hvarCount : EditPass.varCount (EditBuffer.mk p.emptied emitted).toEditPass = p.varCount :=
    rfl
  simp only [EditPass.substitute]
  by_cases hcount : p.varCount ≤ v.index
  · simp only [if_pos hcount]
    show InPlace.on _ _ = (.error (.unknownVariable v), _)
    simp only [substitute, on_bind, on_get, hvarCount, if_pos hcount, on_throw]
  by_cases hself : op.var? = some v
  · simp only [if_neg hcount, if_pos hself]
    show InPlace.on _ _ = (.error (.structural (.selfSubstitution v)), _)
    simp only [substitute, on_bind, on_get, hvarCount, if_neg hcount, if_pos hself, on_throw]
  · simp only [if_neg hcount, if_neg hself]
    refine ⟨_, ?_, h.change (fun p => { p with redirects := p.redirects.insert v op })
      rfl rfl rfl h.inside⟩
    simp only [substitute, on_bind, on_get, hvarCount, if_neg hcount, if_neg hself, on_modify]

end Calls

end EditBuffer

/-- The call on a buffer, and what has happened. -/
def EditPass.Move.perform : EditPass.Move → InPlace EditBuffer EditPass.Event
  | .advance => return .visited (← EditBuffer.advance)
  | .insertBefore v s => return .before v (← EditBuffer.insertBefore v s) s
  | .insertAfter v s => return .after v (← EditBuffer.insertAfter v s) s
  | .replace v s => do EditBuffer.replace v s; return .replaced v s
  | .delete v => do let _ ← EditBuffer.delete v; return .deleted v
  | .substitute v op => do EditBuffer.substitute v op; return .substituted v op

namespace EditBuffer

open EditPass (Event Move)

variable {g : Graph} {p p' : EditPass} {q q' : EditBuffer} {e : Event} {es : List Event}
  {v : Variable} {s : Statement}

/-- **A call in place comes to the call of the pass.** -/
theorem Holds.on_perform (h : q.Holds p) (m : Move) : ComesTo q m.perform (m.run p) := by
  cases m with
  | advance => exact h.on_advance.answer Event.visited
  | insertBefore v s => exact (h.on_insertBefore v s).answer (Event.before v · s)
  | insertAfter v s => exact (h.on_insertAfter v s).answer (Event.after v · s)
  | replace v s =>
    have hrun : Move.run p (.replace v s)
        = ((p.replace v s).map (·, ())).map fun (p', _) => (p', .replaced v s) := by
      rw [Move.run]
      cases p.replace v s <;> rfl
    rw [hrun]
    exact (h.on_replace v s).answer fun _ => Event.replaced v s
  | delete v => exact (h.on_delete v).answer fun _ => Event.deleted v
  | substitute v op =>
    have hrun : Move.run p (.substitute v op)
        = ((p.substitute v op).map (·, ())).map fun (p', _) => (p', .substituted v op) := by
      rw [Move.run]
      cases p.substitute v op <;> rfl
    rw [hrun]
    exact (h.on_substitute v op).answer fun _ => Event.substituted v op

/-- The buffer after a list of calls, with the events in order. -/
def moveAll (q : EditBuffer) : List Move → EditBuffer × List Event
  | [] => (q, [])
  | m :: ms =>
    let (answer, q') := m.perform.on q
    ((moveAll q' ms).1, answer.toOption.toList ++ (moveAll q' ms).2)

theorem Holds.moveAll (h : q.Holds p) (ms : List Move) :
    (q.moveAll ms).1.Holds (p.moveAll ms).1 ∧ (q.moveAll ms).2 = (p.moveAll ms).2 := by
  induction ms generalizing q p with
  | nil => exact ⟨h, rfl⟩
  | cons m ms ih =>
    have hm := h.on_perform m
    rw [EditBuffer.moveAll, EditPass.moveAll, Move.apply]
    rcases hrun : m.run p with error | ⟨p', e⟩
    · rw [hrun] at hm
      rw [(hm : m.perform.on q = _)]
      exact ih h
    · rw [hrun] at hm
      obtain ⟨q', hperform, hq'⟩ := hm
      obtain ⟨hholds, hevents⟩ := ih hq'
      rw [hperform]
      exact ⟨hholds, congrArg (e :: ·) hevents⟩

/-! ## What is shown -/

/-- **The places lead to what a search finds**, since no variable is written twice. -/
theorem Holds.get? (h : q.Holds p) (hrecorded : EditPass.Recorded g p es) (hg : g.Coherent)
    (v : Variable) : q.get? v = p.get? v := by
  obtain ⟨emitted, rfl⟩ := h.eq
  rcases hemitted : emitted.get? v with _ | ⟨b, i⟩
  · -- it is not written, so the search goes on to what waits and to what is ahead
    have hout : p.out.toList.findSome? (·.lookup v) = none := by
      refine List.findSome?_eq_none_iff.2 fun entries hentries => ?_
      obtain ⟨b, hb⟩ := List.mem_iff_getElem?.1 hentries
      rw [Array.getElem?_toList] at hb
      refine Option.eq_none_iff_forall_not_mem.2 fun s hs => h.notes.covers v s b ?_ hemitted
      rw [Array.getD_eq_getD_getElem?, hb]
      exact EditPass.mem_of_lookup hs
    have hsite : p.emptied.source.site? v = p.source.site? v := rfl
    have hahead : p.emptied.isAhead = p.isAhead := rfl
    simp only [EditBuffer.get?, EditPass.get?, hemitted, hout, hsite, hahead]
    rcases hv : p.source.site? v with _ | site
    · rfl
    by_cases hsite : p.isAhead site = true
    · simp only [EditPass.get?_emptied hv hsite]
      rfl
    · simp only [if_neg hsite]
      rfl
  · by_cases hcurrent : p.current = some v
    · have hcurrent' : p.emptied.current = some v := hcurrent
      rw [EditBuffer.get?, if_pos hcurrent', EditPass.get?, if_pos hcurrent]
      rfl
    have hcurrent' : ¬p.emptied.current = some v := hcurrent
    by_cases hdeleted : p.deleted.contains v = true
    · have hdeleted' : p.emptied.deleted.contains v = true := hdeleted
      rw [EditBuffer.get?, if_neg hcurrent', if_pos hdeleted', EditPass.get?, if_neg hcurrent,
        if_pos hdeleted]
    · have hdeleted' : ¬p.emptied.deleted.contains v = true := hdeleted
      obtain ⟨s, hs⟩ := h.notes.leads v b i hemitted
      have hwritten : (v, s) ∈ p.assembled.statements :=
        (hrecorded.tracks hg).mem_assembled_iff_place.2 (.inl ⟨b, List.mem_of_getElem? hs⟩)
      have hfound : (EditBuffer.mk p.emptied emitted).get? v
          = (p.out.getD b [])[i]?.map Prod.snd := by
        rw [EditBuffer.get?, if_neg hcurrent', if_neg hdeleted', hemitted]
        rfl
      rw [hfound, hs, (hrecorded.get?_iff hg).2 hwritten]
      rfl

/-- **A pass in place is the pass.** Let any calls be made of a buffer over a graph, and the same
calls of a pass. The same calls are accepted, with the same events. At every moment the two stand at
the same statement, have handed out as many variables and show the same statement of every variable,
and they come to the same result. A call that the pass refuses fails in place with the same error
and leaves the buffer, with all that it keeps, as it was. -/
theorem moves_in_place (h : Graph.Arises g) {ms : List Move}
    (hmoves : (EditPass.start g).moveAll ms = (p, es)) :
    ∃ q, (start g).moveAll ms = (q, es) ∧ q.current = p.current ∧ q.varCount = p.varCount
      ∧ (∀ v, q.get? v = p.get? v) ∧ q.finish = p.finish
      ∧ (∀ (m : Move) error, m.run p = .error error → m.perform.on q = (.error error, q))
      ∧ ∀ (m : Move) p' e, m.run p = .ok (p', e) → (m.perform.on q).1 = .ok e := by
  obtain ⟨hholds, hevents⟩ := (holds_start g).moveAll ms
  have hrecorded := EditPass.recorded_moveAll g ms
  rw [hmoves] at hholds hevents hrecorded
  refine ⟨((start g).moveAll ms).1, Prod.ext rfl hevents, hholds.current, ?_,
    hholds.get? hrecorded h.coherent, ?_, fun m error hrun => ?_, fun m p' e hrun => ?_⟩
  · rw [EditPass.varCount, hholds.pass]
    rfl
  · rw [hholds.pass, EditPass.finish_emptied]
  · have hm := hholds.on_perform m
    rwa [hrun] at hm
  · have hm := hholds.on_perform m
    rw [hrun] at hm
    obtain ⟨q', hperform, -⟩ := hm
    rw [hperform]

end EditBuffer

end Interpose
