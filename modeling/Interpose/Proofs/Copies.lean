import Interpose.Proofs.Run.Uncopied

/-!
# Removing copies preserves meaning

A pass removes a copy by two calls: it deletes the statement, and it redirects the uses of the
variable to what was copied. If it has gone over a graph in order, with all blocks reached, and has
removed some copies and done nothing else, then its events ask for the graph without these copies,
whose operands are at the ends of their chains. That graph is in order again and runs alike. The one
thing that can go wrong is a condition whose chain ends in a constant, since a condition has to be a
variable.
-/

set_option autoImplicit false

namespace Interpose

variable {g g' : Graph} {next : Variable → Option Operand}

/-- What the statements that are chosen pass on, as far as they are copies. -/
def Graph.copyOf? (g : Graph) (chosen : Variable → Bool) (v : Variable) : Option Operand :=
  if chosen v then (g.get? v).bind Statement.copied? else none

theorem Graph.Coherent.copies_copyOf? (h : g.Coherent) (chosen : Variable → Bool) :
    g.Copies (g.copyOf? chosen) := by
  intro v op hnext
  unfold Graph.copyOf? at hnext
  split at hnext
  · obtain ⟨s, hs, hop⟩ := Option.bind_eq_some_iff.1 hnext
    obtain ⟨b, block, i, hb, hi⟩ := Graph.mem_statements.1 ((h.get?_iff v s).1 hs)
    exact ⟨b, block, i, s, hb, hi, hop⟩
  · cases hnext

/-- Some condition is a chain of copies of a constant. -/
def Graph.FixesCondition (g : Graph) (next : Variable → Option Operand) : Prop :=
  ∃ b block br c x, g.block? b = some block ∧ br ∈ block.branches ∧ br.condition = some c
    ∧ EditPass.EndsAt next (.var c) (.const x)

namespace EditPass

variable {p : EditPass} {es : List Event} {front rest : List Variable}

/-! ## The calls -/

/-- The calls at a statement: the pass goes on to it, and deletes it and substitutes what it copies
if it is to be removed. -/
def removalMoves (next : Variable → Option Operand) (v : Variable) : List Move :=
  .advance :: match next v with
    | some op => [.delete v, .substitute v op]
    | none => []

/-- The events of these calls, if none is refused. -/
def removalEvents (next : Variable → Option Operand) (v : Variable) : List Event :=
  .visited (some v) :: match next v with
    | some op => [.deleted v, .substituted v op]
    | none => []

section Equations

variable {v : Variable} {op : Operand}

theorem removalMoves_of_none (h : next v = none) : removalMoves next v = [Move.advance] := by
  rw [removalMoves, h]

theorem removalMoves_of_some (h : next v = some op) :
    removalMoves next v = [Move.advance, .delete v, .substitute v op] := by
  rw [removalMoves, h]

theorem removalEvents_of_none (h : next v = none) :
    removalEvents next v = [Event.visited (some v)] := by
  rw [removalEvents, h]

theorem removalEvents_of_some (h : next v = some op) :
    removalEvents next v = [Event.visited (some v), .deleted v, .substituted v op] := by
  rw [removalEvents, h]

end Equations

/-- The calls that remove copies in one pass over a graph. -/
def removal (g : Graph) (next : Variable → Option Operand) : List Move :=
  g.keys.flatMap (removalMoves next) ++ [Move.advance]

/-- Their events. -/
def removed (g : Graph) (next : Variable → Option Operand) : List Event :=
  g.keys.flatMap (removalEvents next) ++ [Event.visited none]

/-- The events remove copies and do nothing else, in any order and as often as they like. -/
structure Removes (next : Variable → Option Operand) (es : List Event) : Prop where
  only : ∀ e ∈ es, (∃ answer, e = .visited answer) ∨ (∃ v op, next v = some op ∧ e = .deleted v)
    ∨ ∃ v op, next v = some op ∧ e = .substituted v op
  deleted : ∀ v op, next v = some op → .deleted v ∈ es
  substituted : ∀ v op, next v = some op → .substituted v op ∈ es

theorem removes_removed (hcopies : g.Copies next) : Removes next (removed g next) := by
  have hmem : ∀ v op e, next v = some op →
      e ∈ [Event.visited (some v), .deleted v, .substituted v op] →
      e ∈ removed g next := by
    intro v op e hnext he
    obtain ⟨b, block, i, s, hb, hi, -⟩ := hcopies v op hnext
    have hv : v ∈ g.keys := Graph.mem_keys.2 ⟨b, block, i, s, hb, hi⟩
    exact List.mem_append_left _
      (List.mem_flatMap.2 ⟨v, hv, (removalEvents_of_some hnext).symm ▸ he⟩)
  refine ⟨fun e he => ?_, fun v op hnext => hmem v op _ hnext (by simp),
    fun v op hnext => hmem v op _ hnext (by simp)⟩
  rcases List.mem_append.1 he with he | he
  · obtain ⟨v, -, he⟩ := List.mem_flatMap.1 he
    rcases hnext : next v with _ | op
    · rw [removalEvents_of_none hnext] at he
      exact .inl ⟨some v, List.mem_singleton.1 he⟩
    · rw [removalEvents_of_some hnext] at he
      rcases List.mem_cons.1 he with rfl | he
      · exact .inl ⟨_, rfl⟩
      · rcases List.mem_cons.1 he with rfl | he
        · exact .inr (.inl ⟨v, op, hnext, rfl⟩)
        · exact .inr (.inr ⟨v, op, hnext, List.mem_singleton.1 he⟩)
  · exact .inl ⟨none, List.mem_singleton.1 he⟩

/-- At a statement that is still there, the variable is deleted and redirected to any other
operand. -/
theorem exists_removed {v : Variable} {op : Operand} {s : Statement} (hcurrent : p.current = some v)
    (hs : p.staged = some s) (hslot : v.index < p.varCount) (hop : op.var? ≠ some v) :
    ∃ p₁ p₂, Move.run p (.delete v) = .ok (p₁, .deleted v)
      ∧ Move.run p₁ (.substitute v op) = .ok (p₂, .substituted v op) := by
  have hdelete : Move.run p (.delete v) = .ok (_, .deleted v) :=
    map_eq_ok.2 ⟨_, delete_eq_ok.2 ⟨hcurrent, hs, rfl⟩, rfl⟩
  exact ⟨_, _, hdelete, map_eq_ok.2 ⟨_, substitute_eq_ok.2 ⟨hslot, hop, rfl⟩, rfl⟩⟩

theorem Recorded.lt_varCount (h : Recorded g p es) (hg : g.Coherent) {v : Variable}
    (hv : v ∈ g.keys) : v.index < p.varCount := by
  obtain ⟨b, block, i, s, hb, hi⟩ := Graph.mem_keys.1 hv
  have hbound : v ∈ block.boundVars :=
    List.mem_append_right _ (List.mem_map_of_mem (List.mem_of_getElem? hi))
  rw [h.handed.2]
  exact Nat.lt_add_right _ (hg.lt_varCount (Graph.mem_boundVars_of_block? hb hbound))

/-- **None of the calls is refused**, from any statement on. A substitution would be if it
redirected a variable to itself. -/
theorem Recorded.events_removal (h : Recorded g p es) (hg : g.Coherent)
    (hself : ∀ v op, next v = some op → op.var? ≠ some v) (hkeys : g.keys = front ++ rest)
    (hcount : (es.filterMap Event.answer?).length = front.length) :
    (p.moveAll (rest.flatMap (removalMoves next) ++ [Move.advance])).2
      = rest.flatMap (removalEvents next) ++ [Event.visited none] := by
  induction rest generalizing p es front with
  | nil =>
    have hcurrent := h.current_advance hg
    rw [hcount, hkeys, List.append_nil, List.getElem?_eq_none (Nat.le_refl _)] at hcurrent
    have hadvance : Move.run p .advance = .ok (p.advance, .visited none) :=
      congrArg (fun answer => Except.ok (p.advance, Event.visited answer)) hcurrent
    exact congrArg Prod.snd (moveAll_cons_of_run hadvance [])
  | cons v rest ih =>
    have hcurrent := h.current_advance hg
    rw [hcount, hkeys, List.getElem?_append_right (Nat.le_refl _), Nat.sub_self,
      List.getElem?_cons_zero] at hcurrent
    have hadvance : Move.run p .advance = .ok (p.advance, .visited (some v)) :=
      congrArg (fun answer => Except.ok (p.advance, Event.visited answer)) hcurrent
    have hrecorded : Recorded g p.advance (es ++ [Event.visited (some v)]) :=
      h.step (Move.step hadvance)
    -- whatever else is done at this statement, there is one answer more
    have hgoes : ∀ {p' : EditPass} {es' : List Event}, Recorded g p' es' →
        es'.filterMap Event.answer? = (es ++ [Event.visited (some v)]).filterMap Event.answer? →
        (p'.moveAll (rest.flatMap (removalMoves next) ++ [Move.advance])).2
          = rest.flatMap (removalEvents next) ++ [Event.visited none] := by
      intro p' es' hp' hanswers
      refine ih hp' (hkeys.trans (List.append_cons ..)) ?_
      rw [hanswers, List.filterMap_append, List.length_append, List.length_append, hcount]
      rfl
    rw [List.flatMap_cons, List.flatMap_cons, List.append_assoc, List.append_assoc]
    rcases hnext : next v with _ | op
    · rw [removalMoves_of_none hnext, removalEvents_of_none hnext, List.singleton_append,
        moveAll_cons_of_run hadvance]
      exact congrArg _ (hgoes hrecorded rfl)
    · obtain ⟨s, hs⟩ := staged_advance hcurrent
      have hslot := hrecorded.lt_varCount hg (v := v) (by simp [hkeys])
      obtain ⟨p₁, p₂, hdelete, hsubstitute⟩ := exists_removed hcurrent hs hslot (hself v op hnext)
      have hdone := (hrecorded.step (Move.step hdelete)).step (Move.step hsubstitute)
      have hanswers :
          (es ++ [Event.visited (some v)] ++ [Event.deleted v]
            ++ [Event.substituted v op]).filterMap Event.answer?
          = (es ++ [Event.visited (some v)]).filterMap Event.answer? := by
        simp [Event.answer?]
      rw [removalMoves_of_some hnext, removalEvents_of_some hnext]
      simp only [List.cons_append, List.nil_append]
      rw [moveAll_cons_of_run hadvance, moveAll_cons_of_run hdelete,
        moveAll_cons_of_run hsubstitute]
      dsimp only
      rw [hgoes hdone hanswers]

/-! ## What they ask for -/

namespace Removes

variable (h : Removes next es)

include h

theorem redirectOf_eq : redirectOf es = next := by
  have hfound : ∀ v op, redirectOf es v = some op → next v = some op := by
    intro v op hop
    rcases h.only _ (substituted_of_redirectOf hop) with
      ⟨_, he⟩ | ⟨_, _, _, he⟩ | ⟨w, op', hnext, he⟩
    · cases he
    · cases he
    · cases he
      exact hnext
  funext v
  rcases hnext : next v with _ | op
  · refine Option.eq_none_iff_forall_ne_some.2 fun op hop => ?_
    rw [hfound v op hop] at hnext
    cases hnext
  · obtain ⟨op', hop'⟩ := exists_redirectOf (h.substituted v op hnext)
    rw [hop', ← hfound v op' hop', hnext]

/-- Something has happened only at the copies. -/
theorem at?_ne {v : Variable} (hv : next v = none) : ∀ e ∈ es, e.at? ≠ some v := by
  intro e he hat
  rcases h.only e he with ⟨_, rfl⟩ | ⟨w, op, hnext, rfl⟩ | ⟨w, op, hnext, rfl⟩
  · cases hat
  · obtain rfl := Option.some.inj hat
    rw [hv] at hnext
    cases hnext
  · cases hat

/-- Of a copy nothing is left, any other statement is left alone. -/
theorem around_eq (entry : Variable × Statement) :
    around es entry = (Option.guard (fun e => (next e.1).isNone) entry).toList := by
  obtain ⟨v, s⟩ := entry
  rcases hnext : next v with _ | op
  · -- nothing has happened at any other statement
    obtain ⟨hbefores, hafters, hkept⟩ := untouched (h.at?_ne hnext)
    rw [around, hbefores, hafters, hkept]
    simp [Option.guard, hnext]
  · have hnever : ∀ e ∈ es, e.before? v = none ∧ e.after? v = none ∧ ∀ t, e ≠ .replaced v t := by
      intro e he
      rcases h.only e he with ⟨_, rfl⟩ | ⟨w, _, _, rfl⟩ | ⟨w, _, _, rfl⟩
      all_goals exact ⟨rfl, rfl, fun _ => Event.noConfusion⟩
    have hbefores : befores es v = [] := List.filterMap_eq_nil_iff.2 fun e he => (hnever e he).1
    have hafters : afters es v = [] := List.filterMap_eq_nil_iff.2 fun e he => (hnever e he).2.1
    have hkept : kept es v s = none :=
      kept_eq_none (h.deleted v op hnext) (fun t ht => (hnever _ ht).2.2 t rfl) s
    rw [around, hbefores, hafters, hkept]
    simp [Option.guard, hnext]

theorem flatMap_around (body : List (Variable × Statement)) :
    body.flatMap (around es) = body.filter fun e => (next e.1).isNone := by
  rw [← List.filterMap_eq_filter, List.filterMap_eq_flatMap_toList]
  exact congrArg (fun f => body.flatMap f) (funext h.around_eq)

/-- **The graph that the events ask for** is the one without the copies. -/
theorem uncopied (hedited : Edited g es g') : g.Uncopied next g' where
  blocks := by
    obtain ⟨resolve, hends, hblocks⟩ := hedited.blocks
    refine ⟨resolve, h.redirectOf_eq ▸ hends, hblocks.imp fun block block' hblock => ?_⟩
    exact ⟨hblock.params, by rw [hblock.body, h.flatMap_around], hblock.branches⟩
  provenance := hedited.provenance
  varCount := by
    have hnone : es.filterMap Event.handed? = [] := by
      refine List.filterMap_eq_nil_iff.2 fun e he => ?_
      rcases h.only e he with ⟨_, rfl⟩ | ⟨_, _, _, rfl⟩ | ⟨_, _, _, rfl⟩
      all_goals rfl
    rw [hedited.varCount, hnone]
    rfl

end Removes

/-! ## What comes of it -/

section Result

variable (hg : g.Coherent) (hv : g.WellFormed)
  (hreached : ∀ b block, g.block? b = some block → g.Reached b) (hcopies : g.Copies next)
  (hp : Recorded g p es) (hes : Removes next es)

include hg hv hreached hcopies hp hes

/-- The pass gives what its events ask for: that reads only what is bound before. -/
theorem Removes.finish_eq_ok : p.finish = .ok g' ↔ Edited g es g' := by
  have hacyclic : Acyclic (redirectOf es) :=
    hes.redirectOf_eq.symm ▸ hcopies.acyclic hg hv.toWellUsed hreached
  refine (hp.finish_eq_ok hg hacyclic).trans ⟨And.left, fun hedited => ⟨hedited, ?_⟩⟩
  obtain ⟨resolve, hends, hblocks⟩ := (hes.uncopied hedited).blocks
  exact (Graph.wellFormed_uncopied hg hv hcopies hends hblocks hreached).toWellUsed

/-- **Only a condition that copies a constant is in the way.** -/
theorem Removes.finish_fails_iff : (∃ e, p.finish = .error e) ↔ g.FixesCondition next := by
  have hacyclic : Acyclic (redirectOf es) :=
    hes.redirectOf_eq.symm ▸ hcopies.acyclic hg hv.toWellUsed hreached
  have hexists := hp.exists_edited_iff hg hacyclic
  rw [hes.redirectOf_eq] at hexists
  have hsome : (∃ e, p.finish = .error e) ↔ ¬∃ g', Edited g es g' := by
    simp only [← hes.finish_eq_ok hg hv hreached hcopies hp]
    rcases p.finish with e | g'
    · simp
    · simp
  rw [hsome, hexists]
  -- a chain of copies ends in a variable or in a constant, never in a global
  constructor
  · intro hnot
    push Not at hnot
    obtain ⟨b, block, hb, br, hbr, c, hc, op, hends, hop⟩ := hnot
    cases op with
    | var w => exact absurd rfl hop
    | const x => exact ⟨b, block, br, c, x, hb, hbr, hc, hends⟩
    | global name => exact absurd rfl (hcopies.ne_global hends name)
  · rintro ⟨b, block, br, c, x, hb, hbr, hc, hends⟩ hall
    exact Bool.noConfusion (hall b block hb br hbr c hc _ hends)

end Result

/-- **Removing copies preserves meaning.** Let a graph be in order and all its blocks be reached,
and let any of its statements be chosen that pass on a variable or a constant. A pass that goes over
the graph, deletes each of these and substitutes what it passes on is refused none of these calls.
Whatever calls have the events that remove the chosen copies, the pass has no result exactly if some
condition is by the chosen copies a constant. Otherwise the result is the graph without these
copies, where everything that read one reads the end of its chain. It is in order, and a call of it
does the same as a call of the first graph in any surroundings, those that record all calls among
them. -/
theorem copies_removed (h : Graph.Arises g) (hverify : g.verify = .ok ())
    (hreached : ∀ b, b.index < g.blocks.size → b ∈ g.reachable) (chosen : Variable → Bool) :
    ((start g).moveAll (removal g (g.copyOf? chosen))).2 = removed g (g.copyOf? chosen)
      ∧ Removes (g.copyOf? chosen) (removed g (g.copyOf? chosen))
      ∧ ∀ ms p es, (start g).moveAll ms = (p, es) → Removes (g.copyOf? chosen) es →
        ((∃ e, p.finish = .error e) ↔ g.FixesCondition (g.copyOf? chosen))
          ∧ ∀ g', p.finish = .ok g' → g.Uncopied (g.copyOf? chosen) g' ∧ g'.verify = .ok ()
            ∧ ∀ (σ : Type) (env : Surroundings σ) (fuel : Nat) (args : List Value),
              g'.invoke env fuel args = g.invoke env fuel args := by
  have hg := h.coherent
  have hv := hg.verify_eq_ok.1 hverify
  have hcopies := hg.copies_copyOf? chosen
  have hall : ∀ b block, g.block? b = some block → g.Reached b := fun b block hb =>
    ((Graph.mem_reachable g b).1 (hreached b (Graph.lt_size_of_block? hb))).2
  refine ⟨?_, removes_removed hcopies, fun ms p es hms hes => ?_⟩
  · refine Recorded.start.events_removal hg (fun v op hnext hop => ?_) (List.nil_append _).symm rfl
    -- a copy of itself would be a chain that comes back
    refine hcopies.acyclic hg hv.toWellUsed hall v (.single (hnext.trans ?_))
    cases op <;> simp_all [Operand.var?]
  · have hp : Recorded g p es := by
      have hrecorded := recorded_moveAll g ms
      rwa [hms] at hrecorded
    refine ⟨hes.finish_fails_iff hg hv hall hcopies hp, fun g' hfinish => ?_⟩
    have hedited := (hes.finish_eq_ok hg hv hall hcopies hp).1 hfinish
    have huncopied := hes.uncopied hedited
    obtain ⟨resolve, hends, hblocks⟩ := huncopied.blocks
    refine ⟨huncopied, hedited.coherent.verify_eq_ok.2 ?_, fun σ env fuel args => ?_⟩
    · exact Graph.wellFormed_uncopied hg hv hcopies hends hblocks hall
    · exact Graph.invoke_uncopied hg hv hcopies hall hends hblocks huncopied.provenance
        huncopied.varCount fuel args

/-- Edits of an empty graph that make a loop with three copies. -/
def copyLoopEdits : List Graph.Edit := [
  .addParam .entry .any,
  .pushTo .entry (.plain (.operand (.var ⟨0⟩))),
  .addBlock,
  .addParam ⟨1⟩ .any,
  .pushTo ⟨1⟩ (.plain (.operand (.var ⟨1⟩))),
  .pushTo ⟨1⟩ (.plain (.operand (.var ⟨2⟩))),
  .pushTo ⟨1⟩ (.plain (.call (.var ⟨3⟩) [])),
  .addBlock,
  .branchTo .entry ⟨1⟩ [.var ⟨1⟩],
  .branchUnless ⟨1⟩ ⟨2⟩ [] ⟨5⟩,
  .branchTo ⟨1⟩ ⟨1⟩ [.var ⟨5⟩],
  .leaveWith ⟨2⟩ (.var ⟨4⟩)]

/-- A loop that copies its own parameter, and that calls by a copy of a copy as long as the result
is true. -/
def copyLoop : Graph where
  sites := #[.param .entry 0, .statement .entry 0, .param ⟨1⟩ 0, .statement ⟨1⟩ 0, .statement ⟨1⟩ 1,
    .statement ⟨1⟩ 2]
  blocks := #[
    ⟨[(⟨0⟩, .any)], [(⟨1⟩, .plain (.operand (.var ⟨0⟩)))], [.jump ⟨1⟩ [.var ⟨1⟩]]⟩,
    ⟨[(⟨2⟩, .any)],
      [(⟨3⟩, .plain (.operand (.var ⟨1⟩))), (⟨4⟩, .plain (.operand (.var ⟨2⟩))),
        (⟨5⟩, .plain (.call (.var ⟨3⟩) []))],
      [(Branch.jump ⟨2⟩ []).whenFalse ⟨5⟩, .jump ⟨1⟩ [.var ⟨5⟩]]⟩,
    ⟨[], [], [.leave (.var ⟨4⟩)]⟩]
  lines := []
  provenance := none

theorem arises_copyLoop : Graph.Arises copyLoop :=
  have hedits : (Graph.workAll .empty (copyLoopEdits.map .edit)).1 = copyLoop := by cbv
  hedits ▸ (Graph.Arises.initial .empty).workAll (copyLoopEdits.map .edit)

/-- Without its copies the loop calls the parameter of the entry and gives what it was entered with
the last time. -/
theorem copies_removed_copyLoop : Graph.Arises copyLoop ∧ copyLoop.verify = .ok ()
    ∧ (∀ b, b.index < copyLoop.blocks.size → b ∈ copyLoop.reachable)
    ∧ ∃ p g', (start copyLoop).moveAll (removal copyLoop (copyLoop.copyOf? fun _ => true))
        = (p, removed copyLoop (copyLoop.copyOf? fun _ => true))
      ∧ p.finish = .ok g' ∧ g'.verify = .ok ()
      ∧ copyLoop.Uncopied (copyLoop.copyOf? fun _ => true) g'
      ∧ g'.keys = [⟨5⟩] ∧ g'.invoke Graph.countdown 5 [.nothing] 2
        = some (.ok (.bool true), 0) := by
  have hverify : copyLoop.verify = .ok () := by cbv
  have hreachable : copyLoop.reachable = copyLoop.blockIds := by cbv
  have hreached : ∀ b, b.index < copyLoop.blocks.size → b ∈ copyLoop.reachable := fun b hb =>
    hreachable ▸ (copyLoop.mem_blockIds b).2 hb
  obtain ⟨hevents, hremoves, hresult⟩ :=
    copies_removed arises_copyLoop hverify hreached fun _ => true
  have hmoves : (start copyLoop).moveAll (removal copyLoop (copyLoop.copyOf? fun _ => true))
      = (_, removed copyLoop (copyLoop.copyOf? fun _ => true)) := Prod.ext rfl hevents
  have hfinish : ((start copyLoop).moveAll
      (removal copyLoop (copyLoop.copyOf? fun _ => true))).1.finish = .ok ⟨
      #[.param .entry 0, .deleted, .param ⟨1⟩ 0, .deleted, .deleted, .statement ⟨1⟩ 0],
      #[⟨[(⟨0⟩, .any)], [], [.jump ⟨1⟩ [.var ⟨0⟩]]⟩,
        ⟨[(⟨2⟩, .any)], [(⟨5⟩, .plain (.call (.var ⟨0⟩) []))],
          [(Branch.jump ⟨2⟩ []).whenFalse ⟨5⟩, .jump ⟨1⟩ [.var ⟨5⟩]]⟩,
        ⟨[], [], [.leave (.var ⟨2⟩)]⟩],
      [], none⟩ := by cbv
  obtain ⟨huncopied, hverify', hinvoke⟩ := (hresult _ _ _ hmoves hremoves).2 _ hfinish
  refine ⟨arises_copyLoop, hverify, hreached, _, _, hmoves, hfinish, hverify', huncopied,
    by cbv, ?_⟩
  rw [hinvoke]
  rfl

end EditPass

end Interpose
