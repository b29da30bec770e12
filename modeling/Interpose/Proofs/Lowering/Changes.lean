import Interpose.Proofs.Lowering.Chart

/-!
# What drafting does to a chart

Three things change a graph while it is drafted: a block is opened and given its parameters, a
statement is added to the open block, and an open block is closed by its branches. Each keeps a
chart sound under a condition that says what is bound where it happens.
-/

set_option autoImplicit false

namespace Interpose

open Drafting

namespace Graph

variable {g : Graph} {b : BlockId} {block : Block}

/-! ## Parameters of a new block -/

/-- The graph with parameters added after the others of a block. -/
def withParams (g : Graph) (b : BlockId) : Nat → Graph
  | 0 => g
  | k + 1 =>
    let g' := g.withParams b k
    g'.withParam b ((g'.block? b).getD .empty).params.length .any (.const .nothing)

/-- Parameters for the variables from `n` on. -/
def newParams (n k : Nat) : List (Variable × Ty) := (List.range k).map fun i => (⟨n + i⟩, .any)

theorem newParams_succ (n k : Nat) : newParams n (k + 1) = newParams n k ++ [(⟨n + k⟩, .any)] := by
  simp [newParams, List.range_succ]

@[simp] theorem length_newParams (n k : Nat) : (newParams n k).length = k := by
  simp [newParams]

theorem varCount_withParam (g : Graph) (b : BlockId) (position : Nat) (ty : Ty)
    (default : Operand) : (g.withParam b position ty default).varCount = g.varCount + 1 := by
  simp [withParam, varCount]

theorem varCount_withParams (g : Graph) (b : BlockId) (k : Nat) :
    (g.withParams b k).varCount = g.varCount + k := by
  induction k with
  | zero => rfl
  | succ k ih => rw [withParams, varCount_withParam, ih, Nat.add_assoc]

/-- No block branches to `b`. -/
def Unentered (g : Graph) (b : BlockId) : Prop :=
  ∀ c block, g.block? c = some block → ∀ br ∈ block.branches, br.target ≠ .block b

/-- An argument is passed only to the block that takes it. -/
theorem map_withArgument (h : g.Unentered b) {c : BlockId} (hc : g.block? c = some block)
    (position : Nat) (value : Operand) :
    block.branches.map (·.withArgument b position value) = block.branches := by
  have hall : ∀ br ∈ block.branches, br.withArgument b position value = id br := fun br hbr =>
    if_neg (h c block hc br hbr)
  rw [List.map_congr_left hall, List.map_id]

/-- A block that is not entered gets parameters, and nothing else changes. -/
theorem block?_withParams (h : g.Unentered b) (hb : g.block? b = some block) (c : BlockId)
    (k : Nat) :
    (g.withParams b k).block? c = if b = c then
      some { block with params := block.params ++ newParams g.varCount k } else g.block? c := by
  induction k generalizing c with
  | zero =>
    by_cases hbc : b = c
    · subst hbc
      rw [if_pos rfl, withParams, hb]
      simp [newParams]
    · rw [if_neg hbc, withParams]
  | succ k ih =>
    have hself := ih b
    rw [if_pos rfl] at hself
    have hlen : (((g.withParams b k).block? b).getD .empty).params.length
        = block.params.length + k := by
      rw [hself, Option.getD_some, List.length_append, length_newParams]
    rw [withParams, block?_withParam, hlen, ih c]
    by_cases hbc : b = c
    · subst hbc
      have hfresh : (g.withParams b k).fresh = ⟨g.varCount + k⟩ := by
        rw [fresh, varCount_withParams]
      -- the next parameter goes behind those that are there, so that nothing moves
      have hinsert : (block.params ++ newParams g.varCount k).insertIdx (block.params.length + k)
          (⟨g.varCount + k⟩, Ty.any) = block.params ++ newParams g.varCount (k + 1) := by
        have happend := insertIdx_append (block.params ++ newParams g.varCount k) []
          ((⟨g.varCount + k⟩, .any) : Variable × Ty)
        rw [List.append_nil, List.length_append, length_newParams] at happend
        rw [happend, newParams_succ, List.append_assoc]
      simp only [if_pos, Option.map_some, hfresh, hinsert, map_withArgument h hb]
    · simp only [if_neg hbc]
      rcases hc : g.block? c with _ | other
      · rfl
      · rw [Option.map_some, map_withArgument h hc]

theorem coherent_withParams (h : g.Coherent) (hb : (g.block? b).isSome) (k : Nat) :
    (g.withParams b k).Coherent ∧ ((g.withParams b k).block? b).isSome := by
  induction k with
  | zero => exact ⟨h, hb⟩
  | succ k ih =>
    obtain ⟨block, hblock⟩ := Option.isSome_iff_exists.1 ih.2
    refine ⟨ih.1.withParam hblock ?_ _ _, ?_⟩
    · rw [hblock]
      exact Nat.le_refl _
    · rw [withParams, block?_withParam, hblock]
      rfl

/-! ## Branches at the end of a block -/

/-- The graph with branches added to those of a block. -/
def branched (g : Graph) (b : BlockId) (brs : List Branch) : Graph :=
  g.modifyBlock b fun block => { block with branches := block.branches ++ brs }

theorem block?_branched (g : Graph) (b c : BlockId) (brs : List Branch) :
    (g.branched b brs).block? c
      = if b = c then (g.block? c).map fun block => { block with branches := block.branches ++ brs }
        else g.block? c :=
  block?_modifyBlock g b c _

theorem branched_append (g : Graph) (b : BlockId) (brs brs' : List Branch) :
    (g.branched b brs).branched b brs' = g.branched b (brs ++ brs') := by
  have hblocks : ((g.branched b brs).branched b brs').blocks
      = (g.branched b (brs ++ brs')).blocks := by
    refine Array.ext_getElem? fun i => ?_
    simp only [branched, modifyBlock, Array.getElem?_modify]
    by_cases hi : b.index = i
    · cases g.blocks[i]? <;> simp [hi]
    · simp [hi]
  have hrest : (g.branched b brs).branched b brs'
      = { g.branched b (brs ++ brs') with blocks := ((g.branched b brs).branched b brs').blocks } :=
        rfl
  rw [hrest, hblocks]

theorem Takes.branched {t : Target} {n : Nat} (h : g.Takes t n) (b : BlockId) (brs : List Branch) :
    (g.branched b brs).Takes t n := by
  cases t with
  | leave => exact h
  | block t =>
    obtain ⟨block, hb, hn⟩ := h
    rw [Takes, block?_branched]
    by_cases hbt : b = t
    · rw [if_pos hbt, hb]
      exact ⟨_, rfl, hn⟩
    · rw [if_neg hbt]
      exact ⟨block, hb, hn⟩

/-- A branch is accepted at the end of a block that is open. -/
theorem addBranch_eq_branched (h : g.Coherent) (hb : g.block? b = some block)
    (hopen : ∀ br ∈ block.branches, br.condition ≠ none) {br : Branch}
    (htakes : g.Takes br.target br.args.length) (huses : ∀ v ∈ br.uses, v ∈ g.boundVars) :
    g.addBranch b br = .ok (g.branched b [br]) := by
  refine addBranch_eq_ok.2 ⟨block, hb, ?_, ?_, fun v hv => (h.isDefined_iff v).2 (huses v hv), rfl⟩
  · rw [Block.isClosed]
    rcases hlast : block.branches.getLast? with _ | last
    · rfl
    · have := hopen last (List.mem_of_getLast? hlast)
      simpa [Branch.isConditional, Option.isSome_iff_ne_none] using this
  · rw [targetArity_eq_ok]
    cases ht : br.target with
    | leave =>
      rw [ht] at htakes
      exact htakes
    | block t =>
      rw [ht] at htakes
      exact htakes

end Graph

namespace Chart

variable {c : Chart} {b : BlockId} {block : Block} {v : Variable}

/-- What is bound at the end of a block that exists is bound somewhere. -/
theorem Sound.mem_boundVars (h : c.Sound) (hv : c.Here b v) : v ∈ c.graph.boundVars := by
  rcases hv with hv | ⟨block, hb, hv⟩
  · exact h.bound b v hv
  · exact Graph.mem_boundVars_of_block? hb hv

theorem Here.of_block (hv : c.Here b v) (hb : c.graph.block? b = some block) :
    c.avail b v ∨ v ∈ block.boundVars := by
  rcases hv with hv | ⟨block', hb', hv⟩
  · exact .inl hv
  · rw [hb] at hb'
    exact .inr (Option.some.inj hb' ▸ hv)

/-! ## Opening a block -/

/-- The chart with a new block that has some parameters, for which something is promised. -/
def opened (c : Chart) (promise : Variable → Prop) (k : Nat) : Chart :=
  { c with
    graph := c.graph.addBlock.1.withParams c.next k
    avail := fun b => if b = c.next then promise else c.avail b }

theorem block?_addBlock_next (c : Chart) : c.graph.addBlock.1.block? c.next = some .empty :=
  (Graph.block?_addBlock _ _).trans (if_pos rfl)

theorem avail_opened (c : Chart) (promise : Variable → Prop) (k : Nat) :
    (c.opened promise k).avail c.next = promise := if_pos rfl

/-- No branch of a sound chart goes to a block that does not exist. -/
theorem Sound.unentered_addBlock (h : c.Sound) :
    c.graph.addBlock.1.Unentered c.next := by
  intro b block hb br hbr htarget
  rw [Graph.block?_addBlock] at hb
  by_cases hnew : b.index = c.graph.blocks.size
  · rw [if_pos hnew] at hb
    obtain rfl := Option.some.inj hb
    cases hbr
  · rw [if_neg hnew] at hb
    have htakes := (h.fits b block hb).balanced br hbr
    rw [htarget] at htakes
    obtain ⟨next, hnext, -⟩ := htakes
    exact absurd (Graph.lt_size_of_block? hnext) (Nat.lt_irrefl _)

theorem Sound.block?_opened (h : c.Sound) (promise : Variable → Prop) (k : Nat) (b : BlockId) :
    (c.opened promise k).graph.block? b = if b = c.next then
      some ⟨Graph.newParams c.graph.varCount k, [], []⟩ else c.graph.block? b := by
  have hparams := Graph.block?_withParams h.unentered_addBlock c.block?_addBlock_next b k
  refine hparams.trans ?_
  by_cases hb : b = c.next
  · rw [if_pos hb.symm, if_pos hb]
    rfl
  · have hindex : b.index ≠ c.graph.blocks.size := fun hi => hb (by cases b; simpa [next] using hi)
    rw [if_neg (Ne.symm hb), if_neg hb, Graph.block?_addBlock, if_neg hindex]

theorem block?_size (c : Chart) : c.graph.block? c.next = none := by
  rcases hb : c.graph.block? c.next with _ | block
  · rfl
  · exact absurd (Graph.lt_size_of_block? hb) (Nat.lt_irrefl _)

theorem Sound.advances_opened (h : c.Sound) (promise : Variable → Prop) (k : Nat) :
    Advances [] c [c.next] (c.opened promise k) := by
  have hnone := c.block?_size
  have hold : ∀ b block, c.graph.block? b = some block → b ≠ c.next := by
    rintro b block hb rfl
    rw [hnone] at hb
    cases hb
  refine ⟨?_, fun b block hb => if_neg (hold b block hb), nofun, fun b hb => ?_, fun b hb => ?_,
    fun b block _ hb => ?_, nofun, fun b block hb hmem => ?_⟩
  · have hcount : (c.opened promise k).graph.varCount = c.graph.varCount + k :=
      Graph.varCount_withParams _ _ _
    omega
  · obtain rfl := List.mem_singleton.1 hb
    exact ⟨_, (h.block?_opened promise k _).trans (if_pos rfl), rfl⟩
  · obtain rfl := List.mem_singleton.1 hb
    exact .inr hnone
  · rw [h.block?_opened, if_neg (hold b block hb), hb]
  · rw [h.block?_opened] at hb
    by_cases hnew : b = c.next
    · exact .inl (List.mem_singleton.2 hnew)
    · rw [if_neg hnew] at hb
      rcases hmem with hmem | hmem
      · cases hmem
      · rw [hb] at hmem
        cases hmem

/-- A block may be opened with the promise of anything that is bound somewhere. -/
theorem Sound.opened (h : c.Sound) {promise : Variable → Prop} (k : Nat)
    (hpromise : ∀ v, promise v → v ∈ c.graph.boundVars) : (c.opened promise k).Sound := by
  have ha := h.advances_opened promise k
  have hself : (c.graph.addBlock.1.block? c.next).isSome := by
    rw [block?_addBlock_next]
    rfl
  refine h.advance ha (Graph.coherent_withParams h.coherent.addBlock hself k).1 ?_ ?_
  · intro b hnone v hv
    by_cases hb : b = c.next
    · have hv : promise v := (if_pos hb : (c.opened promise k).avail b = promise) ▸ hv
      exact ha.boundVars (hpromise v hv)
    · have hv : c.avail b v := (if_neg hb : (c.opened promise k).avail b = c.avail b) ▸ hv
      exact ha.boundVars (h.bound b v hv)
  · intro b block hmem hb
    rw [h.block?_opened] at hb
    by_cases hnew : b = c.next
    · rw [if_pos hnew] at hb
      -- the new block is empty
      obtain rfl := Option.some.inj hb
      exact ⟨nofun, nofun, nofun, nofun, nofun⟩
    · rw [if_neg hnew] at hb
      rcases hmem with hmem | hmem
      · cases hmem
      · rw [hb] at hmem
        cases hmem

/-! ## Adding a statement -/

/-- The chart with a statement at the end of the open block. -/
def emitted (c : Chart) (s : Statement) (line : Nat) : Chart :=
  { c with
    graph := (noted c.toDraft line).inserted c.block
      ((c.graph.block? c.block).getD .empty).body.length (Drafting.emitted c.toDraft s line) }

theorem block?_emitted (hb : c.graph.block? c.block = some block) (s : Statement) (line : Nat)
    (a : BlockId) : (c.emitted s line).graph.block? a = if c.block = a then some { block with
      body := block.body ++ [(c.graph.fresh, Drafting.emitted c.toDraft s line)] }
      else c.graph.block? a := by
  obtain ⟨lines, hnoted⟩ := noted_eq c.toDraft line
  have hinsert : (c.emitted s line).graph
      = (noted c.toDraft line).inserted c.block block.body.length
        (Drafting.emitted c.toDraft s line) := by
    rw [emitted, hb]
    rfl
  have happend := Graph.insertIdx_append block.body []
    (c.graph.fresh, Drafting.emitted c.toDraft s line)
  rw [List.append_nil] at happend
  rw [hinsert, Graph.block?_inserted, hnoted]
  by_cases ha : c.block = a
  · subst ha
    have hblock : Graph.block? { c.graph with lines } c.block = some block := hb
    rw [if_pos rfl, if_pos rfl, hblock, Option.map_some]
    exact congrArg some (congrArg (fun body => { block with body }) happend)
  · rw [if_neg ha, if_neg ha]
    rfl

theorem varCount_emitted (c : Chart) (s : Statement) (line : Nat) :
    (c.emitted s line).graph.varCount = c.graph.varCount + 1 := by
  obtain ⟨lines, hnoted⟩ := noted_eq c.toDraft line
  simp [emitted, Graph.inserted, Graph.varCount, hnoted]

theorem advances_emitted (hbare : c.Bare c.block) (s : Statement) (line : Nat) :
    Advances [c.block] c [c.block] (c.emitted s line) := by
  obtain ⟨block, hb, hempty⟩ := hbare
  refine ⟨?_, fun _ _ _ => rfl, fun a ha => ?_, fun a ha => ?_, fun a ha => .inl ha,
    fun a other ha hother => ?_, fun a other ha hother => ?_, fun a other hother hmem => ?_⟩
  · rw [varCount_emitted]
    exact Nat.le_succ _
  · obtain rfl := List.mem_singleton.1 ha
    exact ⟨block, hb, hempty⟩
  · obtain rfl := List.mem_singleton.1 ha
    exact ⟨_, (block?_emitted hb s line _).trans (if_pos rfl), hempty⟩
  · have hne : c.block ≠ a := fun heq => ha (heq ▸ List.mem_cons_self)
    rw [block?_emitted hb, if_neg hne, hother]
  · obtain rfl := List.mem_singleton.1 ha
    rw [hb] at hother
    obtain rfl := Option.some.inj hother
    exact ⟨_, (block?_emitted hb s line _).trans (if_pos rfl), rfl, List.prefix_append _ _⟩
  · refine .inl ?_
    rcases hmem with hmem | hnone
    · exact hmem
    · by_cases ha : c.block = a
      · exact ha ▸ List.mem_cons_self
      · rw [block?_emitted hb, if_neg ha, hnone] at hother
        cases hother

/-- **A statement is accepted** at the end of the open block if what it reads is bound there. -/
theorem Sound.emit (h : c.Sound) (hbare : c.Bare c.block) {s : Statement}
    (huses : ∀ v ∈ s.uses, c.Here c.block v) (line : Nat) :
    Yields (Drafting.emit s line) c.toDraft c.graph.fresh (c.emitted s line).toDraft
      ∧ (c.emitted s line).Sound ∧ (c.emitted s line).Here c.block c.graph.fresh := by
  have ha := advances_emitted hbare s line
  obtain ⟨block, hb, hempty⟩ := hbare
  obtain ⟨lines, hnoted⟩ := noted_eq c.toDraft line
  have hself := (block?_emitted hb s line c.block).trans (if_pos rfl)
  have hcoherent : (noted c.toDraft line).Coherent := by
    rw [hnoted]
    exact h.coherent
  have hnotedBlock : (noted c.toDraft line).block? c.block = some block := by
    rw [hnoted]
    exact hb
  refine ⟨yields_emit.2 ⟨block, hb, ?_, rfl, ?_⟩, ?_, .inr ⟨_, hself, ?_⟩⟩
  · -- a statement of the block that is read stands before its end
    refine Graph.checkStatement_eq_ok.2 fun v hv => ⟨?_, fun i hi => ?_⟩
    · rw [hnoted]
      exact (h.coherent.isDefined_iff v).2 (h.mem_boundVars (huses v hv))
    · rw [hnoted] at hi
      obtain ⟨block', s', hb', hget⟩ := h.coherent.statement_of_site hi
      rw [hb] at hb'
      obtain rfl := Option.some.inj hb'
      exact (List.getElem?_eq_some_iff.1 hget).1
  · rw [emitted, hb]
    rfl
  · refine h.advance ha ?_ (fun b hnone v hv => ha.boundVars (h.bound b v hv)) ?_
    · rw [emitted, hb]
      exact hcoherent.inserted hnotedBlock (Nat.le_refl _) _
    · intro a other hmem hother
      obtain rfl : a = c.block := by
        rcases hmem with hmem | hnone
        · exact List.mem_singleton.1 hmem
        · refine Decidable.by_contra fun hne => ?_
          rw [block?_emitted hb, if_neg (Ne.symm hne), hnone] at hother
          cases hother
      rw [hself] at hother
      obtain rfl := Option.some.inj hother
      refine ⟨fun i w s' hi v hv => ?_, ?_, ?_, ?_, ?_⟩
      · -- a statement at a position sees what stands before the position
        have hsubset : ∀ j ≤ block.body.length,
            block.boundAt (some j) ⊆ Block.boundAt { block with
              body := block.body ++ [(c.graph.fresh, Drafting.emitted c.toDraft s line)] }
                (some j) := by
          intro j hj w hw
          rw [Block.boundAt, Block.bodyVars, List.map_append, List.take_append_of_le_length
            (by rw [List.length_map]; exact hj)]
          exact hw
        rcases Nat.lt_or_ge i block.body.length with hlt | hge
        · rw [List.getElem?_append_left hlt] at hi
          exact ((h.fits _ block hb).statement i w s' hi v hv).imp id fun hv => hsubset i
            (Nat.le_of_lt hlt) hv
        · rw [List.getElem?_append_right hge, List.getElem?_singleton] at hi
          split at hi
          · next hzero =>
            obtain rfl : i = block.body.length := by omega
            cases hi
            refine ((huses v hv).of_block hb).imp id fun hv => hsubset _ (Nat.le_refl _) ?_
            have htake : block.bodyVars.take block.body.length = block.bodyVars :=
              List.take_of_length_le (Nat.le_of_eq (List.length_map _))
            rw [Block.boundAt, htake]
            exact hv
          · cases hi
      all_goals
        have hnil : block.branches = [] := hempty
        simp [hnil]
  · exact List.mem_append_right _ (by simp [Block.bodyVars])

/-! ## Closing a block -/

/-- The chart with branches at the end of a block. -/
def branched (c : Chart) (b : BlockId) (brs : List Branch) : Chart :=
  { c with graph := c.graph.branched b brs }

/-- Branches that close a block: the last one is always taken, and no other. -/
def Closing (brs : List Branch) : Prop :=
  ∃ front last, brs = front ++ [last] ∧ last.condition = none ∧ ∀ br ∈ front, br.condition ≠ none

/-- What a branch needs at the end of a block: what it reads is bound there, the target takes its
arguments, and what was promised to the target is bound. -/
structure Leads (c : Chart) (b : BlockId) (br : Branch) : Prop where
  reads : ∀ v ∈ br.uses, c.Here b v
  takes : c.graph.Takes br.target br.args.length
  keeps : ∀ t, br.target = .block t → ∀ v, c.avail t v → c.Here b v

theorem advances_branched (hbare : c.Bare b) {brs : List Branch} (hclosing : Closing brs) :
    Advances [b] c [] (c.branched b brs) := by
  obtain ⟨block, hb, hempty⟩ := hbare
  have hself := (Graph.block?_branched c.graph b b brs).trans (if_pos rfl)
  rw [hb, Option.map_some] at hself
  refine ⟨?_, fun _ _ _ => rfl, fun a ha => ?_, nofun, nofun, fun a other ha hother => ?_,
    fun a other ha hother => ?_, fun a other hother hmem => .inr ?_⟩
  · exact Nat.le_refl _
  · obtain rfl := List.mem_singleton.1 ha
    exact ⟨block, hb, hempty⟩
  · have hne : b ≠ a := fun heq => ha (heq ▸ List.mem_cons_self)
    exact (Graph.block?_branched c.graph b a brs).trans ((if_neg hne).trans hother)
  · obtain rfl := List.mem_singleton.1 ha
    rw [hb] at hother
    obtain rfl := Option.some.inj hother
    exact ⟨_, hself, rfl, List.prefix_refl _⟩
  · have hother' := (Graph.block?_branched c.graph b a brs).symm.trans hother
    by_cases hab : b = a
    · subst hab
      rw [if_pos rfl, hb, Option.map_some] at hother'
      obtain rfl := Option.some.inj hother'
      obtain ⟨front, last, rfl, hlast, -⟩ := hclosing
      rw [Block.isClosed, hempty, List.nil_append, List.getLast?_concat]
      simp [Branch.isConditional, hlast]
    · rw [if_neg hab] at hother'
      rcases hmem with hmem | hnone
      · exact absurd (List.mem_singleton.1 hmem).symm hab
      · rw [hnone] at hother'
        cases hother'

/-- An open block may be closed by branches for which all is in place. -/
theorem Sound.branched (h : c.Sound) (hbare : c.Bare b) {brs : List Branch} (hclosing : Closing brs)
    (hbrs : ∀ br ∈ brs, c.Leads b br) : (c.branched b brs).Sound := by
  have ha := advances_branched hbare hclosing
  obtain ⟨block, hb, hempty⟩ := hbare
  refine h.advance ha (h.coherent.modifyBlock b (fun _ => rfl) fun _ => rfl)
    (fun b hnone v hv => ha.boundVars (h.bound b v hv)) ?_
  intro a other hmem hother
  have hother' := (Graph.block?_branched c.graph b a brs).symm.trans hother
  -- no other block ends here, and so no other is looked at
  obtain rfl : b = a := by
    rcases hmem with hmem | hnone
    · exact (List.mem_singleton.1 hmem).symm
    · refine Decidable.by_contra fun hne => ?_
      rw [if_neg hne, hnone] at hother'
      cases hother'
  rw [if_pos rfl, hb, Option.map_some] at hother'
  obtain rfl := Option.some.inj hother'
  have hbranches : block.branches ++ brs = brs := by
    rw [hempty, List.nil_append]
  refine ⟨(h.fits b block hb).statement, fun br hbr v hv => ?_, fun br hbr => ?_,
    fun br hbr t ht v hv => ?_, fun br hbr => ?_⟩
  all_goals
    simp only [hbranches] at hbr
  · have hhere := ((hbrs br hbr).reads v hv).of_block hb
    exact hhere
  · exact (hbrs br hbr).takes.branched b brs
  · have hhere := ((hbrs br hbr).keeps t ht v hv).of_block hb
    exact hhere
  · obtain ⟨front, last, rfl, -, hfront⟩ := hclosing
    rw [List.dropLast_concat] at hbr
    exact hfront br hbr

/-- A branch is accepted at the end of an open block, also after branches that have a condition. -/
theorem Sound.addBranch (h : c.Sound) (hbare : c.Bare b) {front : List Branch}
    (hfront : ∀ br ∈ front, br.condition ≠ none) {br : Branch} (hbr : c.Leads b br) :
    (c.graph.branched b front).addBranch b br = .ok (c.graph.branched b (front ++ [br])) := by
  obtain ⟨block, hb, hempty⟩ := hbare
  have hself := (Graph.block?_branched c.graph b b front).trans (if_pos rfl)
  rw [hb, Option.map_some] at hself
  have hcoherent : (c.graph.branched b front).Coherent :=
    h.coherent.modifyBlock b (fun _ => rfl) fun _ => rfl
  rw [Graph.addBranch_eq_branched hcoherent hself ?_ (hbr.takes.branched b front) ?_,
    Graph.branched_append]
  · simpa [hempty] using hfront
  · intro v hv
    have hmem := h.mem_boundVars (hbr.reads v hv)
    rw [← hcoherent.isDefined_iff]
    exact (h.coherent.isDefined_iff v).2 hmem

end Chart

end Interpose
