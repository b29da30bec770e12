import Interpose.EditPass
import Interpose.Proofs.Graph.Coherence

/-!
# An edit pass binds no variable twice

Between two edits the statements of a pass are spread over its output, the visited statement, what
waits behind it and the statements that are still ahead. A deleted statement may come back, so the
visited variable counts in any case. What is bound in one of these places is *claimed*, and no
variable is claimed twice. The edits and the moves keep that, and so the graph that `finish` makes
is coherent.
-/

set_option autoImplicit false

namespace Interpose

namespace EditPass

variable {p p' : EditPass}

/-! ## What an edit accepts and what it makes -/

theorem checkCurrent_eq_ok {v : Variable} : p.checkCurrent v = .ok () ↔ p.current = some v := by
  unfold checkCurrent
  split
  · next h => exact ⟨fun _ => h, fun _ => rfl⟩
  · next h => exact ⟨nofun, fun h' => absurd h' h⟩

theorem check_eq_ok {v : Variable} {s : Statement} {before : Bool} :
    p.check v s before = .ok ()
      ↔ p.current = some v ∧ ∀ u ∈ s.uses, p.checkUse before u = .ok () := by
  rw [check, Interpose.check_eq_ok, checkCurrent_eq_ok, forM_eq_ok]

theorem insertBefore_eq_ok {v new : Variable} {s : Statement} :
    p.insertBefore v s = .ok (p', new) ↔ p.check v s true = .ok ()
      ∧ p' = p.fresh.1.write [(p.source.fresh, s)] ∧ new = p.source.fresh := by
  unfold insertBefore
  rw [Interpose.check_eq_ok]
  refine and_congr_right fun _ => ?_
  constructor
  · intro heq
    cases heq
    exact ⟨rfl, rfl⟩
  · rintro ⟨rfl, rfl⟩
    rfl

theorem insertAfter_eq_ok {v new : Variable} {s : Statement} :
    p.insertAfter v s = .ok (p', new) ↔ p.check v s false = .ok ()
      ∧ p' = { p.fresh.1 with after := p.after ++ [(p.source.fresh, s)] }
      ∧ new = p.source.fresh := by
  unfold insertAfter
  rw [Interpose.check_eq_ok]
  refine and_congr_right fun _ => ?_
  constructor
  · intro heq
    cases heq
    exact ⟨rfl, rfl⟩
  · rintro ⟨rfl, rfl⟩
    rfl

theorem replace_eq_ok {v : Variable} {s : Statement} :
    p.replace v s = .ok p' ↔ p.check v s true = .ok ()
      ∧ p' = { p with deleted := p.deleted.filter (· ≠ v), staged := some s } := by
  unfold EditPass.replace
  rw [Interpose.check_eq_ok]
  refine and_congr_right fun _ => ?_
  exact ⟨fun h => (Except.ok.inj h).symm, fun h => congrArg Except.ok h.symm⟩

theorem delete_eq_ok {v : Variable} {s : Statement} :
    p.delete v = .ok (p', s) ↔ p.current = some v ∧ p.staged = some s
      ∧ p' = { p with staged := none, deleted := v :: p.deleted } := by
  rw [EditPass.delete, Interpose.check_eq_ok, checkCurrent_eq_ok]
  refine and_congr_right fun _ => ?_
  rcases p.staged with _ | s'
  · exact ⟨nofun, nofun⟩
  · constructor
    · intro heq
      cases heq
      exact ⟨rfl, rfl⟩
    · rintro ⟨hs, rfl⟩
      cases hs
      rfl

theorem substitute_eq_ok {v : Variable} {op : Operand} :
    p.substitute v op = .ok p' ↔ v.index < p.varCount ∧ op.var? ≠ some v
      ∧ p' = { p with redirects := p.redirects.insert v op } := by
  simp only [EditPass.substitute, guard_eq_ok, Nat.not_le]
  refine and_congr_right fun _ => and_congr_right fun _ => ?_
  exact ⟨fun h => (Except.ok.inj h).symm, fun h => congrArg Except.ok h.symm⟩

/-! ## What is claimed -/

/-- What the pass binds at the place where it stands. -/
def standing (p : EditPass) : List Variable := p.current.toList ++ p.after.map Prod.fst

/-- The variables of a block that are bound somewhere, or that a statement may bind again. -/
def claimed (p : EditPass) (i : Nat) : List Variable :=
  (p.source.blocks[i]?).elim [] fun b =>
    b.paramVars ++ ((p.out.getD i []).map Prod.fst ++ (if i = p.block then p.standing else [])
      ++ (p.unvisited i b.body).map Prod.fst)

/-- The claims of a block where the pass does not stand. -/
theorem claimed_of_ne {i : Nat} {b : Block} (hb : p.source.blocks[i]? = some b) (hi : i ≠ p.block) :
    p.claimed i
      = b.paramVars ++ ((p.out.getD i []).map Prod.fst ++ (p.unvisited i b.body).map Prod.fst) := by
  rw [claimed, hb, Option.elim_some, if_neg hi, List.append_nil]

/-- The claims of the block where it stands. -/
theorem claimed_of_eq {i : Nat} {b : Block} (hb : p.source.blocks[i]? = some b) (hi : i = p.block) :
    p.claimed i = b.paramVars ++ ((p.out.getD i []).map Prod.fst ++ p.standing
      ++ (p.unvisited i b.body).map Prod.fst) := by
  rw [claimed, hb, Option.elim_some, if_pos hi]

/-- A pass that binds no variable twice. -/
structure Sound (p : EditPass) : Prop where
  separate : Graph.Separate p.claimed p.varCount
  size_out : p.out.size = p.source.blocks.size
  /-- Nothing waits where the pass stands at no statement. -/
  idle : p.current = none → p.after = []

/-- A pass that begins claims what its graph binds. -/
theorem sound_start {g : Graph} (h : g.Coherent) : (start g).Sound where
  separate := by
    refine h.separate.sublist fun i => ?_
    rcases hb : g.blocks[i]? with _ | b
    · simp [claimed, start, hb]
    · have hout : (Array.replicate g.blocks.size ([] : List (Variable × Statement))).getD i []
          = [] := by
        rw [Array.getD_eq_getD_getElem?, Array.getElem?_replicate]
        split <;> rfl
      simp only [claimed, start, hb, hout, standing, unvisited, Option.elim_some, Block.boundVars,
        Block.bodyVars, List.map_nil, Option.toList_none, List.append_nil, ite_self,
        Nat.not_lt_zero, if_false, List.nil_append]
      exact (List.Sublist.refl _).append ((List.drop_sublist _ _).map _)
  size_out := by simp [start]
  idle := fun _ => rfl

/-! ## Moves -/

/-- What is written stands behind what was written for the same block. -/
theorem getD_write (p : EditPass) (entries : List (Variable × Statement))
    (h : p.block < p.out.size) :
    (p.write entries).out.getD p.block [] = p.out.getD p.block [] ++ entries := by
  simp only [write, Array.getD_eq_getD_getElem?, Array.getElem?_modify, if_true,
    Array.getElem?_eq_getElem h, Option.map_some, Option.getD_some]

theorem getD_write_of_ne (p : EditPass) (entries : List (Variable × Statement)) {i : Nat}
    (h : i ≠ p.block) : (p.write entries).out.getD i [] = p.out.getD i [] := by
  simp only [write, Array.getD_eq_getD_getElem?, Array.getElem?_modify, if_neg h.symm]

theorem source_flush (p : EditPass) : p.flush.source = p.source := by
  rcases hc : p.current with _ | v <;> simp [EditPass.flush, hc, write]

/-- Having left a statement, a pass stands at none. -/
theorem current_flush (p : EditPass) : p.flush.current = none := by
  rcases hc : p.current with _ | v <;> simp [EditPass.flush, hc]

theorem source_seek (p : EditPass) : p.seek.source = p.source := by
  induction p using seek.induct with
  | case1 p hlt v s hnext => rw [EditPass.seek, dif_pos hlt, hnext]
  | case2 p hlt hnext ih =>
    rw [EditPass.seek, dif_pos hlt, hnext]
    exact ih
  | case3 p hlt => rw [EditPass.seek, dif_neg hlt]

/-- Leaving a statement claims nothing new: what is kept of it was claimed before. -/
theorem Sound.flush (h : p.Sound) : p.flush.Sound := by
  rcases hc : p.current with _ | v
  · rw [EditPass.flush, hc]
    exact h
  · have hflush : p.flush = { p.write ((p.staged.toList.map fun s => (v, s)) ++ p.after) with
        current := none, staged := none, after := [] } := by rw [EditPass.flush, hc]
    rw [hflush]
    generalize hentries : (p.staged.toList.map fun s => (v, s)) ++ p.after = entries
    -- a deleted statement is not staged any more, so only part of what stood here may be written
    have hkept : (entries.map Prod.fst).Sublist p.standing := by
      rw [← hentries, standing, hc, List.map_append]
      cases p.staged with
      | none => exact List.sublist_append_right _ _
      | some s => exact .refl _
    refine ⟨h.separate.sublist fun i => ?_, ?_, fun _ => rfl⟩
    · rcases hb : p.source.blocks[i]? with _ | b
      · simp [claimed, write, hb]
      by_cases hpb : i = p.block
      · subst hpb
        have hlt : p.block < p.out.size := by
          rw [h.size_out]
          exact (Array.getElem?_eq_some_iff.1 hb).1
        have hout := congrArg (List.map Prod.fst) (getD_write p entries hlt)
        rw [List.map_append] at hout
        have hclaimed := claimed_of_eq (p := { p.write entries with
          current := none, staged := none, after := [] }) hb rfl
        refine hclaimed ▸ ?_
        rw [claimed_of_eq hb rfl]
        refine (List.Sublist.refl _).append (List.Sublist.append ?_ (.refl _))
        refine ((List.append_nil _).trans hout) ▸ ?_
        exact (List.Sublist.refl _).append hkept
      · have hout := getD_write_of_ne p entries hpb
        have hclaimed := claimed_of_ne (p := { p.write entries with
          current := none, staged := none, after := [] }) hb hpb
        refine hclaimed ▸ ?_
        rw [claimed_of_ne hb hpb, ← hout]
        exact .refl _
    · simpa [write] using h.size_out

/-- The claims of a pass that stands at no statement. -/
theorem Sound.claimed_of_idle (h : p.Sound) (hidle : p.current = none) (i : Nat) :
    p.claimed i = (p.source.blocks[i]?).elim [] fun b =>
      b.paramVars ++ ((p.out.getD i []).map Prod.fst ++ (p.unvisited i b.body).map Prod.fst) := by
  have hstanding : p.standing = [] := by rw [standing, hidle, h.idle hidle]; rfl
  simp only [claimed, hstanding, ite_self, List.append_nil]

/-- Going to the next statement claims the same variables: the visited one was still ahead. -/
theorem Sound.seek (h : p.Sound) (hidle : p.current = none) : p.seek.Sound := by
  -- by the recursion of `seek`; what is visited next moves from the unvisited part to the standing
  -- one
  induction p using seek.induct with
  | case1 p hlt v s hnext =>
    rw [EditPass.seek, dif_pos hlt, hnext]
    refine ⟨h.separate.sublist fun i => ?_, h.size_out, nofun⟩
    rw [h.claimed_of_idle hidle]
    rcases hb : p.source.blocks[i]? with _ | b
    · simp [claimed, hb]
    · simp only [claimed, hb, Option.elim_some, List.append_assoc]
      refine (List.Sublist.refl _).append ((List.Sublist.refl _).append ?_)
      by_cases hpb : i = p.block
      · subst hpb
        obtain rfl : p.source.blocks[p.block] = b := by
          rw [Array.getElem?_eq_getElem hlt] at hb
          exact Option.some.inj hb
        obtain ⟨hlen, hget⟩ := List.getElem?_eq_some_iff.1 hnext
        simp only [if_true, standing, h.idle hidle, unvisited, Nat.lt_irrefl, if_false,
          List.drop_eq_getElem_cons hlen, hget]
        exact .refl _
      · simp only [if_neg hpb, unvisited]
        exact .refl _
  | case2 p hlt hnext ih =>
    rw [EditPass.seek, dif_pos hlt, hnext]
    refine ih ⟨?_, h.size_out, h.idle⟩ hidle
    refine h.separate.sublist fun i => ?_
    rw [h.claimed_of_idle hidle]
    rcases hb : p.source.blocks[i]? with _ | b
    · simp [claimed, hb]
    · have hstanding : standing { p with block := p.block + 1, next := 0 } = [] := by
        simp only [standing, hidle, h.idle hidle]
        rfl
      simp only [claimed, hb, Option.elim_some, hstanding, ite_self, List.append_nil]
      refine (List.Sublist.refl _).append ((List.Sublist.refl _).append (.map _ ?_))
      simp only [unvisited]
      by_cases hlt' : i < p.block + 1
      · rw [if_pos hlt']
        exact List.nil_sublist _
      · have hlt'' : ¬i < p.block := by omega
        have hne : i ≠ p.block := by omega
        simp only [if_neg hlt', if_neg hlt'', if_neg hne, ite_self, List.Sublist.refl]
  | case3 p hlt =>
    rw [EditPass.seek, dif_neg hlt]
    exact h

theorem Sound.advance (h : p.Sound) : p.advance.Sound := h.flush.seek p.current_flush

/-! ## Edits -/

/-- An edit that hands out the next variable and claims it at one place keeps the pass sound. -/
theorem Sound.claim_fresh (h : p.Sound) (hblocks : p'.source.blocks = p.source.blocks)
    (hcount : p'.varCount = p.varCount + 1) (hsize : p'.out.size = p.out.size)
    (hidle : p'.current = none → p'.after = [])
    (hsame : ∀ i b, i < p.out.size → p.source.blocks[i]? = some b → i ≠ p.block →
      p'.claimed i = p.claimed i)
    (hnew : ∀ b, p.block < p.out.size → p.source.blocks[p.block]? = some b → ∃ front back,
      p.claimed p.block = front ++ back ∧ p'.claimed p.block = front ++ p.source.fresh :: back) :
    p'.Sound where
  separate := by
    have hlt : ∀ {i b}, p.source.blocks[i]? = some b → i < p.out.size := fun hb => by
      rw [h.size_out]
      exact (Array.getElem?_eq_some_iff.1 hb).1
    have hother : ∀ i, i ≠ p.block → p'.claimed i = p.claimed i := fun i hi => by
      rcases hb : p.source.blocks[i]? with _ | b
      · simp only [claimed, hblocks, hb, Option.elim_none]
      · exact hsame i b (hlt hb) hb hi
    rw [hcount]
    rcases hb : p.source.blocks[p.block]? with _ | b
    · have hnone : p'.claimed = p.claimed := funext fun i => by
        by_cases hi : i = p.block
        · subst hi
          simp only [claimed, hblocks, hb, Option.elim_none]
        · exact hother i hi
      rw [hnone]
      exact h.separate.mono (Nat.le_succ _)
    · obtain ⟨front, back, hold, hnew⟩ := hnew b (hlt hb) hb
      exact h.separate.insert p.block front back hold hnew hother
  size_out := by rw [hsize, hblocks, h.size_out]
  idle := hidle

/-- A statement inserted before the visited one stands behind the output. -/
theorem Sound.insertBefore (h : p.Sound) {v new : Variable} {s : Statement}
    (hinsert : p.insertBefore v s = .ok (p', new)) : p'.Sound := by
  obtain ⟨-, rfl, -⟩ := insertBefore_eq_ok.1 hinsert
  refine h.claim_fresh rfl (Array.size_push _) (Array.size_modify) h.idle ?_ ?_
  · intro i b hlt hb hi
    have hout := getD_write_of_ne p.fresh.1 [(p.source.fresh, s)] hi
    refine (claimed_of_ne (p := p.fresh.1.write [(p.source.fresh, s)]) hb hi).trans ?_
    rw [claimed_of_ne hb hi, hout]
    rfl
  · intro b hlt hb
    refine ⟨b.paramVars ++ (p.out.getD p.block []).map Prod.fst,
      p.standing ++ (p.unvisited p.block b.body).map Prod.fst, ?_, ?_⟩
    · rw [claimed_of_eq hb rfl]
      simp only [List.append_assoc]
    · have hout : ((p.fresh.1.write [(p.source.fresh, s)]).out.getD p.block []).map Prod.fst
          = (p.out.getD p.block []).map Prod.fst ++ [p.source.fresh] :=
        (congrArg _ (getD_write p.fresh.1 [(p.source.fresh, s)] hlt)).trans List.map_append
      refine (claimed_of_eq (p := p.fresh.1.write [(p.source.fresh, s)]) hb rfl).trans ?_
      rw [hout]
      simp only [List.append_assoc]
      rfl

/-- A statement inserted after the visited one stands behind what waits there. -/
theorem Sound.insertAfter (h : p.Sound) {v new : Variable} {s : Statement}
    (hinsert : p.insertAfter v s = .ok (p', new)) : p'.Sound := by
  obtain ⟨hcheck, rfl, -⟩ := insertAfter_eq_ok.1 hinsert
  have hcurrent : p.current ≠ none := by
    rw [(check_eq_ok.1 hcheck).1]
    nofun
  refine h.claim_fresh rfl (Array.size_push _) rfl (fun hnone => absurd hnone hcurrent) ?_ ?_
  · intro i b hlt hb hi
    have hclaimed := claimed_of_ne
      (p := { p.fresh.1 with after := p.after ++ [(p.source.fresh, s)] }) hb hi
    exact hclaimed.trans (claimed_of_ne hb hi).symm
  · intro b hlt hb
    refine ⟨b.paramVars ++ ((p.out.getD p.block []).map Prod.fst ++ p.standing),
      (p.unvisited p.block b.body).map Prod.fst, ?_, ?_⟩
    · rw [claimed_of_eq hb rfl]
      simp only [List.append_assoc]
    · have hstanding : standing { p.fresh.1 with after := p.after ++ [(p.source.fresh, s)] }
          = p.standing ++ [p.source.fresh] := by
        simp only [standing, List.map_append, List.map_cons, List.map_nil, List.append_assoc]
        rfl
      have hclaimed := claimed_of_eq
        (p := { p.fresh.1 with after := p.after ++ [(p.source.fresh, s)] }) hb rfl
      refine hclaimed.trans ?_
      rw [hstanding]
      simp only [List.append_assoc]
      rfl

/-- An edit that leaves every claim where it is keeps the pass sound. -/
theorem Sound.of_claimed (h : p.Sound) (hsource : p'.source = p.source) (hout : p'.out = p.out)
    (hidle : p'.current = none → p'.after = []) (hclaimed : p'.claimed = p.claimed) : p'.Sound where
  separate := by
    rw [hclaimed, varCount, hsource]
    exact h.separate
  size_out := by rw [hout, hsource, h.size_out]
  idle := hidle

theorem Sound.replace (h : p.Sound) {v : Variable} {s : Statement}
    (hreplace : p.replace v s = .ok p') : p'.Sound := by
  obtain ⟨-, rfl⟩ := replace_eq_ok.1 hreplace
  exact h.of_claimed rfl rfl h.idle rfl

theorem Sound.delete (h : p.Sound) {v : Variable} {s : Statement}
    (hdelete : p.delete v = .ok (p', s)) : p'.Sound := by
  obtain ⟨-, -, rfl⟩ := delete_eq_ok.1 hdelete
  exact h.of_claimed rfl rfl h.idle rfl

theorem Sound.substitute (h : p.Sound) {v : Variable} {op : Operand}
    (hsubstitute : p.substitute v op = .ok p') : p'.Sound := by
  obtain ⟨-, -, rfl⟩ := substitute_eq_ok.1 hsubstitute
  exact h.of_claimed rfl rfl h.idle rfl

/-! ## The result -/

/-- A pass has a result exactly if no condition is redirected to something else than a variable, and
everything that is read in the result is bound and reaches its uses. -/
theorem finish_eq_ok {g : Graph} : p.finish = .ok g ↔ ∃ blocks,
    p.assembled.blocks.toList.mapM (redirectBlock p.redirects) = .ok blocks
      ∧ g = { p.assembled with blocks := blocks.toArray }.renumbered
      ∧ firstDangling? g = none ∧ g.verifyUses = .ok () := by
  unfold EditPass.finish
  rw [bind_eq_ok]
  refine exists_congr fun blocks => and_congr_right fun _ => ?_
  generalize Graph.renumbered _ = g'
  rcases hd : firstDangling? g' with _ | u
  · simp only [hd]
    rw [Interpose.check_eq_ok]
    constructor
    · rintro ⟨huses, heq⟩
      cases heq
      exact ⟨rfl, hd, huses⟩
    · rintro ⟨rfl, -, huses⟩
      exact ⟨huses, rfl⟩
  · simp only [hd]
    refine ⟨nofun, ?_⟩
    rintro ⟨rfl, hnone, -⟩
    rw [hd] at hnone
    cases hnone

/-- Redirecting the operands of a block leaves the variables that it binds. -/
theorem boundVars_redirectBlock {redirects : Table Variable Operand} {b b' : Block}
    (h : redirectBlock redirects b = .ok b') : b'.boundVars = b.boundVars := by
  obtain ⟨branches, -, heq⟩ := bind_eq_ok.1 h
  cases heq
  simp [Block.boundVars, Block.paramVars, Block.bodyVars, Function.comp_def]

/-- What a pass leaves behind binds no more than what is claimed. -/
theorem Sound.boundVars_assembled (h : p.Sound) {i : Nat} {b : Block}
    (hb : p.assembled.blocks[i]? = some b) : b.boundVars.Sublist (p.flush.claimed i) := by
  rw [h.flush.claimed_of_idle p.current_flush]
  simp only [assembled, Array.getElem?_mapIdx] at hb
  obtain ⟨b', hb', rfl⟩ := Option.map_eq_some_iff.1 hb
  rw [hb', Option.elim_some]
  simp only [Block.boundVars, Block.paramVars, Block.bodyVars, List.map_append]
  exact .refl _

/-- Redirecting what a pass leaves behind makes a coherent graph, whether or not its uses are in
order. -/
theorem Sound.coherent_redirected (h : p.Sound) {blocks : List Block}
    (hblocks : p.assembled.blocks.toList.mapM (redirectBlock p.redirects) = .ok blocks) :
    ({ p.assembled with blocks := blocks.toArray }.renumbered).Coherent := by
  have hsub : ∀ (i : Nat) (b : Block), blocks[i]? = some b →
      b.boundVars.Sublist (p.flush.claimed i) := by
    intro i b hi
    obtain ⟨b', hb', hredirect⟩ := getElem?_of_mapM_eq_ok hblocks hi
    rw [boundVars_redirectBlock hredirect]
    exact h.boundVars_assembled (by simpa using hb')
  have hseparate := h.flush.separate
  refine Graph.coherent_of_sitesOf (rfl : _ = Graph.sitesOf p.flush.varCount _) ?_ ?_
  · exact hseparate.nodup_flatMap hsub
  · exact fun v hv => hseparate.lt_of_mem_flatMap hsub hv

/-- **The graph that a pass makes is coherent.** -/
theorem Sound.finish (h : p.Sound) {g : Graph} (hfinish : p.finish = .ok g) : g.Coherent := by
  obtain ⟨blocks, hblocks, rfl, -, -⟩ := finish_eq_ok.1 hfinish
  exact h.coherent_redirected hblocks

end EditPass

end Interpose
