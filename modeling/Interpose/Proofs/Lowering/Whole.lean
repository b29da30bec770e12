import Interpose.Proofs.Lowering.Total

/-!
# Lowering a whole function

A function's body is lowered from a chart whose only block has the parameters. At its end the chart
has no open block, and since it kept all its promises its graph is in order. Every block is reached,
because it was entered from a block before it.
-/

set_option autoImplicit false

namespace Interpose

open Drafting Source

namespace Chart

variable {c c' : Chart}

/-! ## The beginning -/

/-- The chart where the body begins. Nothing is promised to the entry. -/
def start (names : List String) (file : String) : Chart where
  graph := Graph.empty.withParams .entry (names.length + 1)
  file
  block := .entry
  env := threadEnv (fun _ => none) (fun _ => true) 1 [] names
  closed := false
  avail _ _ := False

theorem unentered_empty : Graph.empty.Unentered .entry := by
  intro b block hb br hbr
  have hmem := Array.mem_of_getElem? (show Graph.empty.blocks[b.index]? = some block from hb)
  obtain rfl := List.mem_singleton.1 (Array.mem_toList_iff.2 hmem)
  cases hbr

theorem block?_empty (b : BlockId) :
    Graph.empty.block? b = if b = .entry then some .empty else none := by
  by_cases hb : b = .entry
  · subst hb
    rfl
  · rw [if_neg hb, Graph.block?]
    refine Array.getElem?_eq_none ?_
    have hpos : b.index ≠ 0 := fun h => hb (by cases b; exact congrArg BlockId.mk h)
    exact Nat.one_le_iff_ne_zero.2 hpos

theorem block?_start (names : List String) (file : String) (b : BlockId) :
    (start names file).graph.block? b = if b = .entry then
      some ⟨Graph.newParams 0 (names.length + 1), [], []⟩ else none := by
  have hparams := Graph.block?_withParams unentered_empty (block?_empty .entry) b (names.length + 1)
  refine hparams.trans ?_
  by_cases hb : b = .entry
  · rw [if_pos hb.symm, if_pos hb]
    rfl
  · rw [if_neg (Ne.symm hb), if_neg hb, block?_empty, if_neg hb]

theorem sound_start (names : List String) (file : String) : (start names file).Sound := by
  have hentry : (Graph.empty.block? .entry).isSome := rfl
  have hcoherent := (Graph.coherent_withParams Graph.coherent_empty hentry (names.length + 1)).1
  refine ⟨hcoherent, nofun, fun _ h => h, ?_, fun b block hb => ?_⟩
  · exact Graph.lt_size_of_block? ((block?_start names file .entry).trans (if_pos rfl))
  · rw [block?_start] at hb
    split at hb
    · obtain rfl := Option.some.inj hb
      exact ⟨nofun, nofun, nofun, nofun, nofun⟩
    · cases hb

/-- The first statement can be added: every parameter is bound in the entry. -/
theorem ready_start (names : List String) (file : String) : (start names file).Ready := by
  have hself := (block?_start names file .entry).trans (if_pos rfl)
  refine ⟨sound_start names file, rfl, ⟨_, hself, rfl⟩, fun n op hop v hv => ?_⟩
  rcases get?_threadEnv (fun _ => none) (fun _ => true) names [] 1 n with
    ⟨hget, -⟩ | ⟨-, _, hpick, -⟩ | ⟨-, -, -, j, hj, hget⟩
  · rw [start, hget] at hop
    cases hop
  · cases hpick
  · -- parameter `j` is the variable behind that of the function itself
    rw [start, hget] at hop
    obtain rfl := Option.some.inj hop
    obtain rfl := Option.some.inj hv
    rw [threaded_all] at hj
    have hlt := (List.getElem?_eq_some_iff.1 hj).1
    refine .inr ⟨_, hself, List.mem_append_left _ (List.mem_map.2 ⟨(⟨0 + (1 + j)⟩, .any), ?_, ?_⟩)⟩
    · exact List.mem_map.2 ⟨1 + j, List.mem_range.2 (by omega), rfl⟩
    · rw [Nat.zero_add]

/-- The entry gets its parameters. -/
theorem yields_lowerParams (names : List String) (file : String) :
    Yields (lowerParams names) ⟨.empty, file, .entry, [], false⟩ () (start names file).toDraft := by
  have hentry : (Graph.empty.block? .entry).isSome := rfl
  have hparam : ∀ (k : Nat) (env : Bindings), Yields (param .entry)
      ⟨Graph.empty.withParams .entry k, file, .entry, env, false⟩ ⟨k⟩
      ⟨Graph.empty.withParams .entry (k + 1), file, .entry, env, false⟩ := fun k env => by
    have hyields := yields_withParams (d := ⟨.empty, file, .entry, env, false⟩) hentry
      Graph.coherent_empty k
    have hcount : Graph.empty.varCount + k = k := Nat.zero_add k
    rw [hcount] at hyields
    exact hyields
  -- one name after another is bound to the next parameter
  have hnames : ∀ (names : List String) (k : Nat) (env : Bindings),
      Yields (names.forM fun n => do assign n (.var (← param .entry)))
        ⟨Graph.empty.withParams .entry k, file, .entry, env, false⟩ ()
        ⟨Graph.empty.withParams .entry (k + names.length), file, .entry,
          threadEnv (fun _ => none) (fun _ => true) k env names, false⟩ := by
    intro names
    induction names with
    | nil => exact fun k env => yields_pure.2 ⟨rfl, rfl⟩
    | cons n ns ih =>
      intro k env
      have hlength : k + (n :: ns).length = k + 1 + ns.length := by
        rw [List.length_cons]
        omega
      rw [hlength]
      exact yields_bind.2 ⟨(), _, yields_bind.2 ⟨_, _, hparam k env, yields_assign.2 rfl⟩,
        ih (k + 1) _⟩
  have hall := hnames names 1 []
  rw [Nat.add_comm] at hall
  exact yields_bind.2 ⟨_, _, hparam 0 [], hall⟩

/-! ## The body -/

/-- The return at the end of a body: of its last expression, or of `nothing`. -/
def lastReturn : Option (Nat × Expr) → Stmt
  | some (line, e) => .giveBack line e
  | none => .giveBack 0 (.lit .nothing)

/-- The names that the return reads. -/
def resultNames (result : Option (Nat × Expr)) : Names := (result.map (·.2.reads)).getD []

/-- The whole body is lowered from `c` to `c'`. -/
def LowersWhole (body : List Stmt) (c c' : Chart) : Prop :=
  ∃ c₁, LowersBody (resultNames (splitResult body).2) (splitResult body).1 c c₁
    ∧ if c₁.closed then c' = c₁ else LowersStmt [] (lastReturn (splitResult body).2) c₁ c'

theorem yields_lastReturn {d d' : Draft} {u : Unit} (result : Option (Nat × Expr)) :
    Yields (lowerStmt [] (lastReturn result)) d u d' ↔ Yields
      (match result with
        | some (line, e) => do leave (← lowerExpr line e)
        | none => leave (.const .nothing)) d u d' := by
  rcases result with _ | ⟨line, e⟩
  · rw [lastReturn, lowerStmt, lowerExpr, pure_bind]
  · rw [lastReturn, lowerStmt]

/-- **Every body is lowered**, and nothing is left open at its end. -/
theorem Ready.lowersWhole (h : c.Ready) (body : List Stmt) : ∃ c',
    Yields (lowerWhole body) c.toDraft () c'.toDraft ∧ LowersWhole body c c' := by
  obtain ⟨c₁, hybody, hbody⟩ := h.lowersBody (resultNames (splitResult body).2) (splitResult body).1
  obtain ⟨h₁, -⟩ := hbody.continues h
  by_cases hclosed : c₁.closed = true
  · refine ⟨c₁, ?_, c₁, hbody, by rw [if_pos hclosed]⟩
    unfold lowerWhole
    refine yields_bind.2 ⟨(), _, hybody, yields_bind.2 ⟨_, _, yields_get.2 ⟨rfl, rfl⟩, ?_⟩⟩
    rw [if_pos hclosed]
    exact yields_pure.2 ⟨rfl, rfl⟩
  · obtain ⟨c₂, hyreturn, hreturn⟩ := (h₁.ready (by simpa using hclosed)).lowersStmt []
      (lastReturn (splitResult body).2)
    refine ⟨c₂, ?_, c₁, hbody, by rw [if_neg hclosed]; exact hreturn⟩
    unfold lowerWhole
    refine yields_bind.2 ⟨(), _, hybody, yields_bind.2 ⟨_, _, yields_get.2 ⟨rfl, rfl⟩, ?_⟩⟩
    rw [if_neg hclosed]
    exact (yields_lastReturn _).1 hyreturn

theorem LowersWhole.continues {body : List Stmt} (hl : LowersWhole body c c') (h : c.Ready) :
    c.Continues c' ∧ c'.closed = true := by
  obtain ⟨c₁, hbody, hend⟩ := hl
  obtain ⟨h₁, -⟩ := hbody.continues h
  by_cases hclosed : c₁.closed = true
  · rw [if_pos hclosed] at hend
    obtain rfl := hend
    exact ⟨h₁, hclosed⟩
  · rw [if_neg hclosed] at hend
    have hopen : c₁.closed = false := by simpa using hclosed
    obtain ⟨h₂, hclosed₂⟩ := hend.continues (h₁.ready hopen)
    refine ⟨h₁.trans hopen h₂, hclosed₂.trans ?_⟩
    rcases (splitResult body).2 with _ | ⟨line, e⟩ <;> rfl

/-! ## Charts without open blocks -/

/-- What is promised to a block is bound on every walk to it. -/
theorem Sound.mem_boundIn (h : c.Sound) {b : BlockId} {before : List BlockId}
    (hw : c.graph.Walk b before) {v : Variable} (hv : c.avail b v) :
    v ∈ c.graph.boundIn before := by
  induction hw with
  | start => exact absurd hv (h.entry v)
  | @step b t before hw hfollows ih =>
    obtain ⟨block, hb, hmem⟩ := hfollows
    obtain ⟨br, hbr, htarget⟩ := List.mem_filterMap.1 hmem
    have ht : br.target = .block t := by
      unfold Branch.block? at htarget
      split at htarget
      · next heq => exact heq.trans (congrArg Target.block (Option.some.inj htarget))
      · cases htarget
    rw [Graph.mem_boundIn]
    rcases (h.fits b block hb).edge br hbr t ht v hv with hv | hv
    · obtain ⟨a, ha, rest⟩ := Graph.mem_boundIn.1 (ih hv)
      exact ⟨a, List.mem_cons_of_mem b ha, rest⟩
    · exact ⟨b, List.mem_cons_self, block, hb, hv⟩

/-- **A chart that kept its promises is in order** once all its blocks are closed. -/
theorem Sound.wellFormed (h : c.Sound)
    (hclosed : ∀ b block, c.graph.block? b = some block → block.isClosed = true) :
    c.graph.WellFormed where
  ends b block hb := by
    have hlast := hclosed b block hb
    rw [Block.isClosed, Option.any_eq_true] at hlast
    obtain ⟨last, hlast, hcond⟩ := hlast
    obtain ⟨front, hfront⟩ := List.getLast?_eq_some_iff.1 hlast
    refine ⟨front, last, hfront, ?_, fun br hbr => ?_⟩
    · simpa [Branch.isConditional] using hcond
    · refine (h.fits b block hb).conditional br ?_
      rw [hfront, List.dropLast_concat]
      exact hbr
  balanced b block hb br hbr := (h.fits b block hb).balanced br hbr
  bound b block hb v hv := by
    have hfits := h.fits b block hb
    -- what a place reads was promised to the block or is bound in it
    have hmem : c.avail b v ∨ v ∈ block.boundVars := by
      rcases List.mem_append.1 hv with hbody | hbranch
      · obtain ⟨⟨w, s⟩, hmem, hv⟩ := List.mem_flatMap.1 hbody
        obtain ⟨i, hi⟩ := List.mem_iff_getElem?.1 hmem
        exact (hfits.statement i w s hi v hv).imp id fun hv => block.boundAt_subset _ hv
      · obtain ⟨br, hbr, hv⟩ := List.mem_flatMap.1 hbranch
        exact hfits.branch br hbr v hv
    rcases hmem with hv | hv
    · exact h.bound b v hv
    · exact Graph.mem_boundVars_of_block? hb hv
  statement b block before hb hw i w s hi v hv :=
    ((h.fits b block hb).statement i w s hi v hv).imp (h.mem_boundIn hw) id
  branch b block before hb hw br hbr v hv :=
    ((h.fits b block hb).branch br hbr v hv).imp (h.mem_boundIn hw) id

/-- The chart with a mark of where its graph comes from, which no promise is about. -/
def marked (c : Chart) (p : Option Provenance) : Chart :=
  { c with graph := { c.graph with provenance := p } }

theorem Sound.marked (h : c.Sound) {p : Option Provenance} : (c.marked p).Sound :=
  ⟨h.coherent, h.bound, h.entry, h.size_pos, fun b block hb =>
    have hfits := h.fits b block hb
    ⟨hfits.statement, hfits.branch, hfits.balanced, hfits.edge, hfits.conditional⟩⟩

/-- A block that was entered from a reached block is reached. -/
theorem Entered.reached (h : Entered c c') (hone : ∀ b, b ≠ .entry → c.graph.block? b = none)
    {b : BlockId} (hb : (c'.graph.block? b).isSome) : c'.graph.Reached b := by
  induction hn : b.index using Nat.strongRecOn generalizing b with
  | ind n ih =>
    by_cases hentry : b = .entry
    · rw [hentry]
      exact Graph.reached_entry
    · obtain ⟨p, hlt, hfollows⟩ := h b (hone b hentry) hb
      have hp : (c'.graph.block? p).isSome := by
        obtain ⟨block, hp, -⟩ := hfollows
        rw [hp]
        rfl
      have hreached := ih p.index (by omega) hp rfl
      exact hreached.follow hfollows

/-- The graph of a function is what the chart has become that begins with its parameters. -/
structure Lowers (d : Source.Function) (file : String) (c : Chart) : Prop where
  yields : lowerFunction d file = .ok c.graph
  whole : LowersWhole d.body (start d.params file) c

theorem exists_lowers (d : Source.Function) (file : String) : ∃ c, Lowers d file c := by
  obtain ⟨c, hyields, hwhole⟩ := (ready_start d.params file).lowersWhole d.body
  refine ⟨c, ?_, hwhole⟩
  have hrun : Yields (do lowerParams d.params; lowerWhole d.body : Drafting Unit)
      ⟨.empty, file, .entry, [], false⟩ () c.toDraft :=
    yields_bind.2 ⟨(), _, yields_lowerParams d.params file, hyields⟩
  unfold lowerFunction
  rw [Yields] at hrun
  dsimp only
  rw [hrun]
  rfl

namespace Lowers

variable {d : Source.Function} {file : String}

theorem continues (h : Lowers d file c) : (start d.params file).Continues c ∧ c.closed = true :=
  h.whole.continues (ready_start d.params file)

theorem isClosed (h : Lowers d file c) {b : BlockId} {block : Block}
    (hb : c.graph.block? b = some block) : block.isClosed = true := by
  obtain ⟨hcontinues, hclosed⟩ := h.continues
  have hended := hcontinues.advances.ended b block hb
  rw [ends_closed hclosed] at hended
  refine (hended ?_).resolve_left nofun
  by_cases hentry : b = .entry
  · exact .inl (List.mem_singleton.2 hentry)
  · refine .inr ?_
    rw [block?_start, if_neg hentry]

/-- The graph is in order, wherever it is said to come from. -/
theorem wellFormed (h : Lowers d file c) (p : Option Provenance) : (c.marked p).graph.WellFormed :=
  h.continues.1.sound.marked.wellFormed fun _ _ hb => h.isClosed hb

theorem reachable (h : Lowers d file c) (p : Option Provenance) (b : BlockId)
    (hb : b.index < c.graph.blocks.size) : b ∈ (c.marked p).graph.reachable := by
  have hentered : Entered (start d.params file) (c.marked p) := h.continues.1.entered
  refine (Graph.mem_reachable _ _).2 ⟨hb, hentered.reached (fun a ha => ?_) ?_⟩
  · rw [block?_start, if_neg ha]
  · exact (Graph.block?_isSome _ _).2 hb

theorem entry (h : Lowers d file c) : ∃ block, c.graph.block? .entry = some block
    ∧ block.params = Graph.newParams 0 (d.params.length + 1) := by
  obtain ⟨block, hb, hparams, -⟩ := h.continues.1.advances.exists_block
    ((block?_start d.params file .entry).trans (if_pos rfl))
  exact ⟨block, hb, hparams⟩

theorem length_params (h : Lowers d file c) :
    c.graph.entry.params.length = d.params.length + 1 := by
  obtain ⟨block, hb, hparams⟩ := h.entry
  rw [Graph.entry_of_block? hb, hparams, Graph.length_newParams]

end Lowers

end Chart

end Interpose
