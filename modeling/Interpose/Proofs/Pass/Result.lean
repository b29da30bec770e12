import Interpose.Proofs.Graph.Arising
import Interpose.Proofs.Pass.Chains
import Interpose.Proofs.Pass.Tracking

/-!
# The result of a pass

What a pass makes is said here by its events alone, without a pass. In every block each statement of
the graph is put down with what was made of it, operands and conditions become the ends of their
chains, and the rest stays. `finish` makes exactly that graph, and refuses only where there is none,
because a condition would be no variable, or where it reads something that is not bound before.
-/

set_option autoImplicit false

namespace Interpose

namespace EditPass

/-! ## The graph that the events ask for -/

/-- A branch with its operands at the ends of their chains; the condition's end is a variable. -/
structure EditedBranch (resolve : Operand → Operand) (br br' : Branch) : Prop where
  target : br'.target = br.target
  args : br'.args = br.args.map resolve
  condition : br'.condition.map Operand.var = br.condition.map fun c => resolve (.var c)

/-- A block with its statements, each with what was made of it, and with its operands at the ends of
their chains. -/
structure EditedBlock (es : List Event) (resolve : Operand → Operand) (b b' : Block) : Prop where
  params : b'.params = b.params
  body : b'.body = (b.body.flatMap (around es)).map fun entry => (entry.1, entry.2.map resolve)
  branches : List.Forall₂ (EditedBranch resolve) b.branches b'.branches

/-- The graph that the events ask for. -/
structure Edited (g : Graph) (es : List Event) (g' : Graph) : Prop where
  blocks : ∃ resolve : Operand → Operand, (∀ op, EndsAt (redirectOf es) op (resolve op))
    ∧ List.Forall₂ (EditedBlock es resolve) g.blocks.toList g'.blocks.toList
  lines : g'.lines = g.lines
  provenance : g'.provenance = g.provenance
  /-- The counter has gone up by what was handed out. -/
  varCount : g'.varCount = g.varCount + (es.filterMap Event.handed?).length
  coherent : g'.Coherent

variable {g g' g₁ g₂ : Graph} {p p' : EditPass} {e : Event} {es : List Event}
  {resolve : Operand → Operand}

/-! ## It is determined by them -/

theorem EditedBranch.unique {br br₁ br₂ : Branch} (h₁ : EditedBranch resolve br br₁)
    (h₂ : EditedBranch resolve br br₂) : br₁ = br₂ := by
  have htarget := h₁.target.trans h₂.target.symm
  have hargs := h₁.args.trans h₂.args.symm
  have hcondition : br₁.condition = br₂.condition :=
    Option.map_injective (fun _ _ h => Operand.var.inj h) (h₁.condition.trans h₂.condition.symm)
  cases br₁
  cases br₂
  exact Branch.mk.injEq .. ▸ ⟨htarget, hcondition, hargs⟩

theorem EditedBlock.unique {b b₁ b₂ : Block} (h₁ : EditedBlock es resolve b b₁)
    (h₂ : EditedBlock es resolve b b₂) : b₁ = b₂ := by
  have hparams := h₁.params.trans h₂.params.symm
  have hbody := h₁.body.trans h₂.body.symm
  have hbranches :=
    List.right_unique_forall₂' (R := EditedBranch resolve) (fun _ _ _ => EditedBranch.unique)
      h₁.branches h₂.branches
  cases b₁
  cases b₂
  exact Block.mk.injEq .. ▸ ⟨hparams, hbody, hbranches⟩

/-- There is at most one graph that the events ask for. -/
theorem Edited.unique (h₁ : Edited g es g₁) (h₂ : Edited g es g₂) : g₁ = g₂ := by
  obtain ⟨resolve₁, hends₁, hblocks₁⟩ := h₁.blocks
  obtain ⟨resolve₂, hends₂, hblocks₂⟩ := h₂.blocks
  obtain rfl : resolve₁ = resolve₂ := funext fun op => (hends₁ op).unique (hends₂ op)
  have hblocks : g₁.blocks = g₂.blocks :=
    Array.toList_inj.1
      (List.right_unique_forall₂' (R := EditedBlock es resolve₁) (fun _ _ _ => EditedBlock.unique)
        hblocks₁ hblocks₂)
  have hsites := h₁.coherent.sites_unique h₂.coherent hblocks (h₁.varCount.trans h₂.varCount.symm)
  have hlines := h₁.lines.trans h₂.lines.symm
  have hprovenance := h₁.provenance.trans h₂.provenance.symm
  cases g₁
  cases g₂
  exact Graph.mk.injEq .. ▸ ⟨hsites, hblocks, hlines, hprovenance⟩

/-! ## What an edited block reads -/

/-- Whatever a statement reads then is what one of its operands has become. -/
theorem exists_of_mem_uses_map {s : Statement} {v : Variable} (hv : v ∈ (s.map resolve).uses) :
    ∃ op, (∀ u, op.var? = some u → u ∈ s.uses) ∧ (resolve op).var? = some v := by
  rw [Statement.uses, Statement.map, Operation.uses, Operation.operands_map] at hv
  obtain ⟨_, hresult, hv⟩ := List.mem_filterMap.1 hv
  obtain ⟨op, hop, rfl⟩ := List.mem_map.1 hresult
  exact ⟨op, fun u hu => List.mem_filterMap.2 ⟨op, hop, hu⟩, hv⟩

/-- Whatever a branch reads then is what its condition or one of its arguments has become. -/
theorem EditedBranch.exists_of_mem_uses {br br' : Branch} (h : EditedBranch resolve br br')
    {v : Variable} (hv : v ∈ br'.uses) :
    ∃ op, (∀ u, op.var? = some u → u ∈ br.uses) ∧ (resolve op).var? = some v := by
  rcases List.mem_append.1 hv with hcondition | harg
  · have hmapped : some (.var v) = br.condition.map fun c => resolve (.var c) := by
      rw [← h.condition, Option.mem_toList.1 hcondition]
      rfl
    obtain ⟨c, hc, hend⟩ := Option.map_eq_some_iff.1 hmapped.symm
    refine ⟨.var c, fun u hu => ?_, by rw [hend]; rfl⟩
    obtain rfl := Option.some.inj hu
    exact List.mem_append_left _ (Option.mem_toList.2 hc)
  · rw [h.args] at harg
    obtain ⟨_, hresult, hv⟩ := List.mem_filterMap.1 harg
    obtain ⟨op, hop, rfl⟩ := List.mem_map.1 hresult
    exact ⟨op, fun u hu => List.mem_append_right _ (List.mem_filterMap.2 ⟨op, hop, hu⟩), hv⟩

/-! ## The pass makes it -/

/-- A pass leaves behind, in every block, each statement with what was made of it. -/
theorem Tracks.assembled (h : Tracks g p es) (hg : g.Coherent) : p.assembled.blocks
    = g.blocks.map fun b => { b with body := b.body.flatMap (around es) } := by
  obtain ⟨hflush, hidle⟩ := h.flush
  refine Array.ext_getElem? fun i => ?_
  have hblocks : p.flush.source.blocks = g.blocks := hflush.blocks
  simp only [EditPass.assembled, Array.getElem?_mapIdx, Array.getElem?_map, hblocks]
  rcases hi : g.blocks[i]? with _ | b
  · rfl
  · have huntouched := flatMap_around_untouched (hflush.untouched_ahead hg hi)
    have hbody : p.flush.out.getD i [] ++ p.flush.unvisited i b.body
        = b.body.flatMap (around es) := by
      conv_rhs => rw [← p.flush.visited_append_unvisited i b.body, List.flatMap_append, huntouched]
      rw [hidle.out i b hi]
    rw [Option.map_some, Option.map_some, hbody]

theorem redirectBranch_eq_ok {t : Table Variable Operand} {br br' : Branch} :
    redirectBranch t br = .ok br' ↔ EditedBranch (redirect t) br br' := by
  unfold redirectBranch
  rcases hc : br.condition with _ | c
  · constructor
    · intro h
      cases h
      exact ⟨rfl, rfl, by simp [hc]⟩
    · intro h
      have hcondition := h.condition
      rw [hc, Option.map_none, Option.map_eq_none_iff] at hcondition
      have htarget := h.target
      have hargs := h.args
      cases br'
      simp_all
      rfl
  · dsimp only
    constructor
    · intro h
      split at h
      · next c' hend =>
        cases h
        exact ⟨rfl, rfl, by simp [hc, hend]⟩
      · cases h
    · intro h
      have hcondition := h.condition
      rw [hc, Option.map_some, Option.map_eq_some_iff] at hcondition
      obtain ⟨c', hc', hend⟩ := hcondition
      rw [← hend]
      have htarget := h.target
      have hargs := h.args
      cases br'
      simp_all
      rfl

theorem redirectBlock_eq_ok {t : Table Variable Operand} {b b' : Block} :
    redirectBlock t { b with body := b.body.flatMap (around es) } = .ok b'
      ↔ EditedBlock es (redirect t) b b' := by
  unfold redirectBlock
  dsimp only
  rw [bind_eq_ok]
  simp only [mapM_eq_ok_iff_forall₂, redirectBranch_eq_ok]
  constructor
  · rintro ⟨branches, hbranches, heq⟩
    cases heq
    exact ⟨rfl, rfl, hbranches⟩
  · intro h
    refine ⟨b'.branches, h.branches, ?_⟩
    have hparams := h.params
    have hbody := h.body
    cases b'
    simp_all
    rfl

theorem mapM_redirectBlock_eq_ok {t : Table Variable Operand} {blocks : List Block}
    (h : Tracks g p es) (hg : g.Coherent) :
    p.assembled.blocks.toList.mapM (redirectBlock t) = .ok blocks
      ↔ List.Forall₂ (EditedBlock es (redirect t)) g.blocks.toList blocks := by
  rw [h.assembled hg, Array.toList_map, mapM_eq_ok_iff_forall₂, List.forall₂_map_left_iff]
  simp only [redirectBlock_eq_ok]

/-- The graph with the blocks that were redirected is the one that the events ask for. -/
theorem Recorded.edited (h : Recorded g p es) (hg : g.Coherent) (hacyclic : Acyclic (redirectOf es))
    {blocks : List Block}
    (hblocks : p.assembled.blocks.toList.mapM (redirectBlock p.redirects) = .ok blocks) :
    Edited g es { p.assembled with blocks := blocks.toArray }.renumbered := by
  have htracks := h.tracks hg
  have hnext : p.redirects.get? = redirectOf es := funext htracks.redirects
  have hsource : p.assembled.lines = g.lines ∧ p.assembled.provenance = g.provenance
      ∧ p.assembled.varCount = p.varCount := by
    -- no step of a pass touches the lines or the provenance
    have hkept : p.source.lines = g.lines ∧ p.source.provenance = g.provenance := by
      clear hblocks hnext htracks hacyclic
      induction h with
      | start => exact ⟨rfl, rfl⟩
      | step _ hstep ih =>
        obtain ⟨-, hlines, hprovenance, -⟩ := hstep.source
        exact ⟨hlines.trans ih.1, hprovenance.trans ih.2⟩
    simp only [EditPass.assembled, source_flush, Graph.varCount, EditPass.varCount, and_true]
    exact hkept
  refine
    { blocks := ⟨redirect p.redirects,
      fun op => hnext ▸ redirect_endsAt (hnext.symm ▸ hacyclic) op, ?_⟩
      lines := hsource.1
      provenance := hsource.2.1
      varCount := ?_
      coherent := (h.passed.sound hg).coherent_redirected hblocks }
  · exact (mapM_redirectBlock_eq_ok htracks hg).1 hblocks
  · rw [Graph.varCount, Graph.renumbered, Graph.size_sitesOf]
    exact hsource.2.2.trans h.handed.2

/-- **A pass has a result exactly if the graph that its events ask for reads only what is bound
before**, and then that graph is the result. -/
theorem Recorded.finish_eq_ok (h : Recorded g p es) (hg : g.Coherent)
    (hacyclic : Acyclic (redirectOf es)) : p.finish = .ok g' ↔ Edited g es g' ∧ g'.WellUsed := by
  rw [EditPass.finish_eq_ok]
  constructor
  · rintro ⟨blocks, hblocks, rfl, -, huses⟩
    have hedited := h.edited hg hacyclic hblocks
    exact ⟨hedited, hedited.coherent.verifyUses_eq_ok.1 huses⟩
  · rintro ⟨hedited, huses⟩
    have hnext : p.redirects.get? = redirectOf es := funext (h.tracks hg).redirects
    obtain ⟨resolve, hends, hforall⟩ := hedited.blocks
    obtain rfl : resolve = redirect p.redirects := funext fun op =>
      (hends op).unique (hnext ▸ redirect_endsAt (hnext.symm ▸ hacyclic) op)
    have hblocks := (mapM_redirectBlock_eq_ok (h.tracks hg) hg).2 hforall
    refine ⟨_, hblocks, hedited.unique (h.edited hg hacyclic hblocks), ?_,
      hedited.coherent.verifyUses_eq_ok.2 huses⟩
    refine List.find?_eq_none.2 fun v hv => ?_
    obtain ⟨block, hmem, hv⟩ := List.mem_flatMap.1 hv
    obtain ⟨i, hi⟩ := List.mem_iff_getElem?.1 hmem
    have hb : g'.block? ⟨i⟩ = some block := by simpa [Graph.block?] using hi
    simp [(hedited.coherent.isDefined_iff v).2 (huses.bound _ block hb v hv)]

theorem exists_forall₂_iff {α β : Type} {R : α → β → Prop} {l : List α} :
    (∃ l', List.Forall₂ R l l') ↔ ∀ a ∈ l, ∃ b, R a b := by
  constructor
  · rintro ⟨l', h⟩
    induction h with
    | nil => nofun
    | cons hab _ ih => exact List.forall_mem_cons.2 ⟨⟨_, hab⟩, ih⟩
  · intro h
    induction l with
    | nil => exact ⟨[], .nil⟩
    | cons a l ih =>
      obtain ⟨⟨b, hb⟩, hl⟩ := List.forall_mem_cons.1 h
      obtain ⟨l', hl'⟩ := ih hl
      exact ⟨b :: l', .cons hb hl'⟩

/-- A branch has an edited form exactly if its condition's chain ends in a variable. -/
theorem exists_editedBranch_iff {br : Branch} : (∃ br', EditedBranch resolve br br')
    ↔ ∀ c, br.condition = some c → (resolve (.var c)).isVar = true := by
  constructor
  · rintro ⟨br', h⟩ c hc
    have hcondition := h.condition
    rw [hc, Option.map_some, Option.map_eq_some_iff] at hcondition
    obtain ⟨c', -, hend⟩ := hcondition
    rw [← hend]
    rfl
  · intro h
    rcases hc : br.condition with _ | c
    · exact ⟨⟨br.target, none, br.args.map resolve⟩, rfl, rfl, by rw [hc]; rfl⟩
    · have hvar := h c hc
      rcases hend : resolve (.var c) with c' | c' | c'
      · exact ⟨⟨br.target, some c', br.args.map resolve⟩, rfl, rfl, by rw [hc, Option.map_some,
          Option.map_some, hend]⟩
      all_goals
        rw [hend] at hvar
        cases hvar

/-- The events ask for a graph exactly if every condition's chain ends in a variable. -/
theorem Recorded.exists_edited_iff (h : Recorded g p es) (hg : g.Coherent)
    (hacyclic : Acyclic (redirectOf es)) : (∃ g', Edited g es g')
      ↔ ∀ b block, g.block? b = some block → ∀ br ∈ block.branches, ∀ c, br.condition = some c →
        ∀ op, EndsAt (redirectOf es) (.var c) op → op.isVar = true := by
  have hnext : p.redirects.get? = redirectOf es := funext (h.tracks hg).redirects
  have hends : ∀ op, EndsAt (redirectOf es) op (redirect p.redirects op) := fun op =>
    hnext ▸ redirect_endsAt (hnext.symm ▸ hacyclic) op
  -- chains end in one place, so any resolution that an edited graph comes with is `redirect`
  have hexists : (∃ g', Edited g es g')
      ↔ ∃ blocks, List.Forall₂ (EditedBlock es (redirect p.redirects)) g.blocks.toList blocks := by
    constructor
    · rintro ⟨g', hedited⟩
      obtain ⟨resolve, hresolve, hforall⟩ := hedited.blocks
      obtain rfl : resolve = redirect p.redirects :=
        funext fun op => (hresolve op).unique (hends op)
      exact ⟨_, hforall⟩
    · rintro ⟨blocks, hforall⟩
      exact ⟨_, h.edited hg hacyclic ((mapM_redirectBlock_eq_ok (h.tracks hg) hg).2 hforall)⟩
  have hblock : ∀ block : Block, (∃ block', EditedBlock es (redirect p.redirects) block block')
      ↔ ∀ br ∈ block.branches, ∀ c, br.condition = some c →
        (redirect p.redirects (.var c)).isVar = true := by
    intro block
    simp only [← exists_editedBranch_iff, ← exists_forall₂_iff]
    constructor
    · rintro ⟨block', h⟩
      exact ⟨_, h.branches⟩
    · rintro ⟨branches, hbranches⟩
      exact ⟨⟨_, _, branches⟩, rfl, rfl, hbranches⟩
  simp only [hexists, exists_forall₂_iff, hblock]
  constructor
  · intro hall b block hb br hbr c hc op hop
    have hmem : block ∈ g.blocks.toList :=
      List.mem_iff_getElem?.2 ⟨b.index, by simpa [Graph.block?] using hb⟩
    rw [hop.unique (hends (.var c))]
    exact hall block hmem br hbr c hc
  · intro hall block hmem br hbr c hc
    obtain ⟨i, hi⟩ := List.mem_iff_getElem?.1 hmem
    have hb : g.block? ⟨i⟩ = some block := by simpa [Graph.block?] using hi
    exact hall _ block hb br hbr c hc _ (hends (.var c))

/-! ## The order of the visits -/

/-- The statements that are still to be visited. -/
def pending (p : EditPass) : List (Variable × Statement) :=
  ((p.source.blocks.toList.drop p.block).flatMap Block.body).drop p.next

/-- The next statement to visit is the first of those that are still to be visited. -/
theorem pending_seek (hcurrent : p.current = none)
    (hnext : ∀ block, p.source.blocks[p.block]? = some block →
      p.next ≤ block.body.length) :
    p.seek.current = p.pending.head?.map Prod.fst ∧ p.seek.pending = p.pending.tail := by
  have hsplit : ∀ hlt : p.block < p.source.blocks.size, p.pending
      = p.source.blocks[p.block].body.drop p.next
        ++ (p.source.blocks.toList.drop (p.block + 1)).flatMap Block.body := by
    intro hlt
    have hle := hnext _ (Array.getElem?_eq_getElem hlt)
    have hdrop : p.source.blocks.toList.drop p.block
        = p.source.blocks[p.block] :: p.source.blocks.toList.drop (p.block + 1) :=
      List.drop_eq_getElem_cons (by simpa using hlt)
    rw [pending, hdrop, List.flatMap_cons, List.drop_append_of_le_length hle]
  -- by the recursion of `seek`: either the block has a next statement, or it is exhausted, or there
  -- are no more blocks
  induction p using seek.induct with
  | case1 p hlt v s hbody =>
    obtain ⟨hlen, hget⟩ := List.getElem?_eq_some_iff.1 hbody
    have hle : p.next + 1 ≤ p.source.blocks[p.block].body.length := hlen
    have hdrop : p.source.blocks.toList.drop p.block
        = p.source.blocks[p.block] :: p.source.blocks.toList.drop (p.block + 1) :=
      List.drop_eq_getElem_cons (by simpa using hlt)
    rw [EditPass.seek, dif_pos hlt, hbody, hsplit hlt, List.drop_eq_getElem_cons hlen, hget]
    refine ⟨rfl, ?_⟩
    rw [pending]
    dsimp only
    rw [hdrop, List.flatMap_cons, List.drop_append_of_le_length hle]
    rfl
  | case2 p hlt hbody ih =>
    have hle := List.getElem?_eq_none_iff.1 hbody
    have hpending : p.pending = pending { p with block := p.block + 1, next := 0 } := by
      rw [hsplit hlt, List.drop_eq_nil_iff.2 hle, List.nil_append]
      rfl
    rw [EditPass.seek, dif_pos hlt, hbody, hpending]
    refine ih hcurrent (fun _ _ => Nat.zero_le _) fun hlt' => ?_
    have hdrop := List.drop_eq_getElem_cons (l := p.source.blocks.toList) (i := p.block + 1)
      (by simpa using hlt')
    rw [pending, hdrop, List.flatMap_cons, List.drop_zero, List.drop_zero]
    rfl
  | case3 p hlt =>
    have hdrop : p.source.blocks.toList.drop p.block = [] :=
      List.drop_eq_nil_iff.2 (by simpa using hlt)
    have hnone : p.pending = [] := by
      rw [pending, hdrop, List.flatMap_nil, List.drop_nil]
    rw [EditPass.seek, dif_neg hlt, hnone]
    exact ⟨hcurrent, rfl⟩

/-- The answers are the variables of the statements in order, and none when all were visited. -/
theorem Recorded.answers (h : Recorded g p es) (hg : g.Coherent) :
    p.pending = g.statements.drop (es.filterMap Event.answer?).length
      ∧ es.filterMap Event.answer?
        = (List.range (es.filterMap Event.answer?).length).map fun i => g.keys[i]? := by
  induction h with
  | start => exact ⟨rfl, rfl⟩
  | @step p p' es e hrecorded hstep ih =>
    obtain ⟨hpending, hanswers⟩ := ih
    -- only the step to the next statement answers, and only it moves on
    have hother : e.answer? = none → p'.source.blocks = p.source.blocks → p'.block = p.block →
        p'.next = p.next →
        p'.pending = g.statements.drop ((es ++ [e]).filterMap Event.answer?).length
          ∧ (es ++ [e]).filterMap Event.answer?
            = (List.range ((es ++ [e]).filterMap Event.answer?).length).map fun i =>
              g.keys[i]? := by
      intro hanswer hblocks hblock hnext
      rw [List.filterMap_append, List.filterMap_cons, List.filterMap_nil, hanswer, List.append_nil,
        pending, hblocks, hblock, hnext]
      exact ⟨hpending, hanswers⟩
    cases hstep with
    | advance =>
      rw [List.filterMap_append, List.filterMap_cons, List.filterMap_nil]
      have hflush : p.flush.pending = p.pending := by
        rcases hc : p.current with _ | v <;> simp [EditPass.flush, hc, write, pending]
      have hle := ((hrecorded.tracks hg).flush).1
      obtain ⟨hcurrent, htail⟩ :=
        pending_seek p.current_flush fun block hb => hle.next_le block (hle.blocks ▸ hb)
      rw [hflush, hpending] at hcurrent htail
      refine ⟨?_, ?_⟩
      · refine htail.trans ?_
        simp [Event.answer?, List.tail_drop]
      · have hanswer : p.advance.current = g.keys[(es.filterMap Event.answer?).length]? := by
          refine hcurrent.trans ?_
          rw [List.head?_drop, Graph.keys, List.getElem?_map]
        simp only [Event.answer?, List.length_append, List.length_singleton, List.range_succ,
          List.map_append, List.map_singleton, ← hanswers, hanswer]
    | before hinsert =>
      obtain ⟨-, rfl, -⟩ := insertBefore_eq_ok.1 hinsert
      exact hother rfl rfl rfl rfl
    | after hinsert =>
      obtain ⟨-, rfl, -⟩ := insertAfter_eq_ok.1 hinsert
      exact hother rfl rfl rfl rfl
    | replaced hreplace =>
      obtain ⟨-, rfl⟩ := replace_eq_ok.1 hreplace
      exact hother rfl rfl rfl rfl
    | deleted hdelete =>
      obtain ⟨-, -, rfl⟩ := delete_eq_ok.1 hdelete
      exact hother rfl rfl rfl rfl
    | substituted hsubstitute =>
      obtain ⟨-, -, rfl⟩ := substitute_eq_ok.1 hsubstitute
      exact hother rfl rfl rfl rfl

/-- A pass that comes to a statement has it at hand. -/
theorem staged_seek {v : Variable} (hcurrent : p.current = none) (hv : p.seek.current = some v) :
    ∃ s, p.seek.staged = some s := by
  induction p using seek.induct with
  | case1 p hlt w s hbody =>
    rw [EditPass.seek, dif_pos hlt, hbody]
    exact ⟨s, rfl⟩
  | case2 p hlt hbody ih =>
    rw [EditPass.seek, dif_pos hlt, hbody] at hv ⊢
    exact ih hcurrent hv
  | case3 p hlt =>
    rw [EditPass.seek, dif_neg hlt, hcurrent] at hv
    cases hv

/-- **The next call of `advance`** goes on to the first statement that was not visited. -/
theorem Recorded.current_advance (h : Recorded g p es) (hg : g.Coherent) :
    p.advance.current = g.keys[(es.filterMap Event.answer?).length]? := by
  have hlast := congrArg List.getLast? ((h.step .advance).answers hg).2
  simpa [Event.answer?, List.range_succ] using hlast

theorem staged_advance {v : Variable} (hv : p.advance.current = some v) :
    ∃ s, p.advance.staged = some s :=
  staged_seek p.current_flush hv

/-- The calls that move to the next statement. -/
def Move.isAdvance : Move → Bool
  | .advance => true
  | _ => false

/-- There is an answer for every call that moves on, since these are never refused. -/
theorem length_answers (p : EditPass) (ms : List Move) :
    ((p.moveAll ms).2.filterMap Event.answer?).length = ms.countP Move.isAdvance := by
  induction ms generalizing p with
  | nil => rfl
  | cons m ms ih =>
    have hone : ((m.apply p).2.filterMap Event.answer?).length = if m.isAdvance then 1 else 0 := by
      unfold Move.apply
      rcases hrun : m.run p with _ | ⟨p', e⟩
      · cases m with
        | advance => cases hrun
        | _ => rfl
      · cases m with
        | advance =>
          cases hrun
          rfl
        | _ =>
          obtain ⟨_, _, heq⟩ := map_eq_ok.1 hrun
          cases heq
          rfl
    rw [EditPass.moveAll, List.filterMap_append, List.length_append, hone, ih, List.countP_cons,
      Nat.add_comm]

/-- **A pass makes exactly the requested edits.** Let any calls be made of a pass over a graph, and
let no chain of the substitutions that were accepted come back to itself. Then the calls of
`advance` answered with the variables of the graph's statements, one after the other, and with none
after the last. `finish` gives a graph exactly if that is the graph which the accepted calls ask for
and everything that is read in it is bound, and bound before on every way to the use. There is at
most one such graph, and there is one exactly if no condition's chain ends in something else than a
variable. -/
theorem finish_exact (h : Graph.Arises g) (ms : List Move)
    (hacyclic : Acyclic (redirectOf ((start g).moveAll ms).2)) :
    ((start g).moveAll ms).2.filterMap Event.answer?
        = (List.range (ms.countP Move.isAdvance)).map (fun i => g.keys[i]?)
      ∧ (∀ g', ((start g).moveAll ms).1.finish = .ok g'
        ↔ Edited g ((start g).moveAll ms).2 g' ∧ g'.WellUsed)
      ∧ (∀ g₁ g₂, Edited g ((start g).moveAll ms).2 g₁ →
        Edited g ((start g).moveAll ms).2 g₂ → g₁ = g₂)
      ∧ ((∃ g', Edited g ((start g).moveAll ms).2 g')
        ↔ ∀ b block, g.block? b = some block → ∀ br ∈ block.branches, ∀ c, br.condition = some c →
          ∀ op, EndsAt (redirectOf ((start g).moveAll ms).2) (.var c) op → op.isVar = true) := by
  have hrecorded := recorded_moveAll g ms
  refine ⟨?_, fun g' => hrecorded.finish_eq_ok h.coherent hacyclic, fun _ _ => Edited.unique,
    hrecorded.exists_edited_iff h.coherent hacyclic⟩
  rw [← length_answers (start g) ms]
  exact (hrecorded.answers h.coherent).2

/-- Calls of a pass over the loop through the entry: an edit too early, which is refused; at the
call, a statement before it, its removal, and a substitution by the parameter; then the end of the
pass. -/
def callLoopMoves : List Move := [
  .delete ⟨1⟩,
  .advance,
  .insertBefore ⟨1⟩ (.plain (.operand (.var ⟨0⟩))),
  .delete ⟨1⟩,
  .substitute ⟨1⟩ (.var ⟨0⟩),
  .advance]

theorem events_callLoopMoves : ((start .callLoop).moveAll callLoopMoves).2 = [
    .visited (some ⟨1⟩), .before ⟨1⟩ ⟨2⟩ (.plain (.operand (.var ⟨0⟩))), .deleted ⟨1⟩,
    .substituted ⟨1⟩ (.var ⟨0⟩), .visited none] := by cbv

/-- The pass goes to its end, where the call is gone and what read it reads the parameter. -/
theorem finish_exact_callLoop : Graph.Arises .callLoop
    ∧ Acyclic (redirectOf ((start .callLoop).moveAll callLoopMoves).2)
    ∧ ∃ g', ((start .callLoop).moveAll callLoopMoves).1.finish = .ok g'
      ∧ Edited .callLoop ((start .callLoop).moveAll callLoopMoves).2 g' ∧ g'.WellUsed := by
  have hacyclic : Acyclic (redirectOf ((start .callLoop).moveAll callLoopMoves).2) := by
    rw [events_callLoopMoves]
    have hhop : ∀ v w, Hops (redirectOf [.visited (some ⟨1⟩),
        .before ⟨1⟩ ⟨2⟩ (.plain (.operand (.var ⟨0⟩))), .deleted ⟨1⟩, .substituted ⟨1⟩ (.var ⟨0⟩),
        .visited none]) v w → v = ⟨1⟩ ∧ w = ⟨0⟩ := by
      intro v w h
      simp only [Hops, redirectOf, List.foldl_cons, List.foldl_nil, Event.redirect] at h
      split at h
      · next heq => exact ⟨heq.symm, (Operand.var.inj (Option.some.inj h)).symm⟩
      · cases h
    intro v hv
    obtain ⟨u, hfirst, -⟩ := Relation.TransGen.head'_iff.1 hv
    obtain ⟨u', -, hlast⟩ := Relation.TransGen.tail'_iff.1 hv
    have hone := (hhop _ _ hfirst).1
    have hzero := (hhop _ _ hlast).2
    rw [hone] at hzero
    cases hzero
  have hfinish : ((start .callLoop).moveAll callLoopMoves).1.finish = .ok ⟨
      #[.param .entry 0, .deleted, .statement .entry 0],
      #[⟨[(⟨0⟩, .any)], [(⟨2⟩, .plain (.operand (.var ⟨0⟩)))],
          [(Branch.jump ⟨1⟩ []).whenFalse ⟨0⟩, .jump .entry [.var ⟨0⟩]]⟩,
        ⟨[], [], [.leave (.var ⟨0⟩)]⟩],
      [], none⟩ := by cbv
  exact ⟨Graph.arises_callLoop, hacyclic, _, hfinish,
    ((finish_exact Graph.arises_callLoop callLoopMoves hacyclic).2.1 _).1 hfinish⟩

end EditPass

end Interpose
