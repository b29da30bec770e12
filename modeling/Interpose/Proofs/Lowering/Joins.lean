import Interpose.Proofs.Lowering.Changes

/-!
# Where ways meet

A join and the head of a loop are drafted in the same manner. A block is opened and gets a parameter
for every name that it takes, the ways that lead to it are closed by branches with as many
arguments, and drafting goes on in the block, where the names stand for its parameters or for what
they stood for on all ways. The chart promises to the block what is bound on every way, so all ways
keep the promise.
-/

set_option autoImplicit false

namespace Interpose

open Drafting

/-! ## Names that become parameters -/

section Threading

variable (pick : String → Option Operand) (keep : String → Bool)

/-- One name at a block that takes names: it stands for the operand that is picked for it, or for a
new parameter if it is kept, and otherwise for what it stood for before. -/
def threadStep (target : BlockId) (env : Bindings) (n : String) : Drafting Bindings := do
  match pick n with
  | some op => return env.bind n op
  | none => if keep n then return env.bind n (.var (← param target)) else return env

/-- The names that become parameters. -/
def threaded (names : Names) : Names := names.filter fun n => (pick n).isNone && keep n

/-- What the names stand for afterwards, if the parameters are the variables from `i` on. -/
def threadEnv (i : Nat) (env : Bindings) : Names → Bindings
  | [] => env
  | n :: ns =>
    match pick n with
    | some op => threadEnv i (env.bind n op) ns
    | none => if keep n then threadEnv (i + 1) (env.bind n (.var ⟨i⟩)) ns else threadEnv i env ns

section Names

variable {pick keep} {n : String} {op : Operand}

/-! A name is picked an operand for, or kept as a parameter, or left. -/

theorem threaded_picked (hp : pick n = some op) (ns : Names) :
    threaded pick keep (n :: ns) = threaded pick keep ns := by
  simp [threaded, hp]

theorem threaded_kept (hp : pick n = none) (hk : keep n = true) (ns : Names) :
    threaded pick keep (n :: ns) = n :: threaded pick keep ns := by
  simp [threaded, hp, hk]

theorem threaded_left (hk : keep n = false) (ns : Names) :
    threaded pick keep (n :: ns) = threaded pick keep ns := by
  simp [threaded, hk]

theorem threadEnv_picked (hp : pick n = some op) (i : Nat) (env : Bindings) (ns : Names) :
    threadEnv pick keep i env (n :: ns) = threadEnv pick keep i (env.bind n op) ns := by
  rw [threadEnv, hp]

theorem threadEnv_kept (hp : pick n = none) (hk : keep n = true) (i : Nat) (env : Bindings)
    (ns : Names) :
    threadEnv pick keep i env (n :: ns)
      = threadEnv pick keep (i + 1) (env.bind n (.var ⟨i⟩)) ns := by
  rw [threadEnv, hp]
  exact if_pos hk

theorem threadEnv_left (hp : pick n = none) (hk : keep n = false) (i : Nat) (env : Bindings)
    (ns : Names) : threadEnv pick keep i env (n :: ns) = threadEnv pick keep i env ns := by
  rw [threadEnv, hp]
  exact if_neg (Bool.eq_false_iff.1 hk)

end Names

theorem yields_withParams {d : Draft} {g : Graph} {b : BlockId} (hb : (g.block? b).isSome)
    (hg : g.Coherent) (k : Nat) :
    Yields (param b) { d with graph := g.withParams b k } ⟨g.varCount + k⟩
      { d with graph := g.withParams b (k + 1) } := by
  obtain ⟨block, hblock⟩ := Option.isSome_iff_exists.1 (Graph.coherent_withParams hg hb k).2
  refine yields_param.2 ⟨block, hblock, ?_, ?_⟩
  · rw [Graph.fresh, Graph.varCount_withParams]
  · rw [Graph.withParams, hblock]
    rfl

/-- The names are threaded one after another, and each parameter is the next variable. -/
theorem yields_threadStep {d : Draft} {g : Graph} {b : BlockId} (hb : (g.block? b).isSome)
    (hg : g.Coherent) (names : Names) (env : Bindings) (k : Nat) :
    Yields (names.foldlM (threadStep pick keep b) env) { d with graph := g.withParams b k }
      (threadEnv pick keep (g.varCount + k) env names)
      { d with graph := g.withParams b (k + (threaded pick keep names).length) } := by
  induction names generalizing env k with
  | nil => exact yields_pure.2 ⟨rfl, rfl⟩
  | cons n ns ih =>
    rw [List.foldlM_cons, yields_bind]
    rcases hp : pick n with _ | op
    · rcases hk : keep n with _ | _
      · have hstep : Yields (threadStep pick keep b env n) { d with graph := g.withParams b k } env
            { d with graph := g.withParams b k } := by
          rw [threadStep, hp]
          dsimp only
          rw [if_neg (Bool.eq_false_iff.1 hk)]
          exact yields_pure.2 ⟨rfl, rfl⟩
        rw [threaded_left hk, threadEnv_left hp hk]
        exact ⟨_, _, hstep, ih env k⟩
      · have hstep : Yields (threadStep pick keep b env n) { d with graph := g.withParams b k }
            (env.bind n (.var ⟨g.varCount + k⟩)) { d with graph := g.withParams b (k + 1) } := by
          rw [threadStep, hp]
          dsimp only
          rw [if_pos hk, yields_bind]
          exact ⟨_, _, yields_withParams hb hg k, yields_pure.2 ⟨rfl, rfl⟩⟩
        have hlength : k + ((threaded pick keep ns).length + 1)
            = k + 1 + (threaded pick keep ns).length := by omega
        rw [threaded_kept hp hk, threadEnv_kept hp hk, List.length_cons, hlength]
        exact ⟨_, _, hstep, ih _ (k + 1)⟩
    · have hstep : Yields (threadStep pick keep b env n) { d with graph := g.withParams b k }
          (env.bind n op) { d with graph := g.withParams b k } := by
        rw [threadStep, hp]
        exact yields_pure.2 ⟨rfl, rfl⟩
      rw [threaded_picked hp, threadEnv_picked hp]
      exact ⟨_, _, hstep, ih _ k⟩

/-- What a name stands for at the block: the operand picked for it, its parameter, or what it stood
for. -/
theorem get?_threadEnv (names : Names) (env : Bindings) (i : Nat) (n : String) :
    ((threadEnv pick keep i env names).get? n = env.get? n
        ∧ (n ∈ names → pick n = none ∧ keep n = false))
      ∨ (n ∈ names ∧ ∃ op, pick n = some op ∧ (threadEnv pick keep i env names).get? n = some op)
      ∨ n ∈ names ∧ pick n = none ∧ keep n = true ∧ ∃ j, (threaded pick keep names)[j]? = some n
        ∧ (threadEnv pick keep i env names).get? n = some (.var ⟨i + j⟩) := by
  induction names generalizing env i with
  | nil => exact .inl ⟨rfl, nofun⟩
  | cons m ms ih =>
    -- a later occurrence decides; where there is none, it is what `m` is bound to now, if that is
    -- the name
    rcases hp : pick m with _ | op
    · rcases hk : keep m with _ | _
      · rw [threaded_left hk, threadEnv_left hp hk]
        rcases ih env i with ⟨hget, hms⟩ | ⟨hmem, hget⟩ | ⟨hmem, hrest⟩
        · refine .inl ⟨hget, fun hmem => ?_⟩
          rcases List.mem_cons.1 hmem with rfl | hmem
          · exact ⟨hp, hk⟩
          · exact hms hmem
        · exact .inr (.inl ⟨List.mem_cons_of_mem m hmem, hget⟩)
        · exact .inr (.inr ⟨List.mem_cons_of_mem m hmem, hrest⟩)
      · rw [threaded_kept hp hk, threadEnv_kept hp hk]
        rcases ih (env.bind m (.var ⟨i⟩)) (i + 1) with
          ⟨hget, hms⟩ | ⟨hmem, hget⟩ | ⟨hmem, hpn, hkn, j, hj, hget⟩
        · rw [Bindings.get?_bind] at hget
          by_cases hmn : m = n
          · subst hmn
            rw [if_pos rfl] at hget
            exact .inr (.inr ⟨List.mem_cons_self, hp, hk, 0, rfl, hget⟩)
          · rw [if_neg hmn] at hget
            exact .inl ⟨hget, fun hmem => hms ((List.mem_cons.1 hmem).resolve_left (Ne.symm hmn))⟩
        · exact .inr (.inl ⟨List.mem_cons_of_mem m hmem, hget⟩)
        · refine .inr (.inr ⟨List.mem_cons_of_mem m hmem, hpn, hkn, j + 1, by simpa using hj, ?_⟩)
          rw [hget, Nat.add_assoc, Nat.add_comm 1]
    · rw [threaded_picked hp, threadEnv_picked hp]
      rcases ih (env.bind m op) i with ⟨hget, hms⟩ | ⟨hmem, hget⟩ | ⟨hmem, hrest⟩
      · rw [Bindings.get?_bind] at hget
        by_cases hmn : m = n
        · subst hmn
          rw [if_pos rfl] at hget
          exact .inr (.inl ⟨List.mem_cons_self, op, hp, hget⟩)
        · rw [if_neg hmn] at hget
          exact .inl ⟨hget, fun hmem => hms ((List.mem_cons.1 hmem).resolve_left (Ne.symm hmn))⟩
      · exact .inr (.inl ⟨List.mem_cons_of_mem m hmem, hget⟩)
      · exact .inr (.inr ⟨List.mem_cons_of_mem m hmem, hrest⟩)

end Threading

/-! ## Closing the ways -/

/-- The branches by which an edge leads into a block. -/
def Edge.branches (e : Edge) (target : BlockId) (args : List Operand) : List Branch :=
  match e.unlessTaken with
  | none => [.jump target args]
  | some (v, other) => [(Branch.jump target args).whenFalse v, .jump other []]

theorem Edge.branches_none {e : Edge} (h : e.unlessTaken = none) (target : BlockId)
    (args : List Operand) : e.branches target args = [.jump target args] := by
  rw [branches, h]

theorem Edge.branches_some {e : Edge} {v : Variable} {other : BlockId}
    (h : e.unlessTaken = some (v, other)) (target : BlockId) (args : List Operand) :
    e.branches target args = [(Branch.jump target args).whenFalse v, .jump other []] := by
  rw [branches, h]

/-- The branches of an edge close its source. -/
theorem Edge.closing (e : Edge) (target : BlockId) (args : List Operand) :
    Chart.Closing (e.branches target args) := by
  rcases hu : e.unlessTaken with _ | ⟨v, other⟩
  · rw [branches_none hu]
    exact ⟨[], _, rfl, rfl, nofun⟩
  · rw [branches_some hu]
    refine ⟨[_], _, rfl, rfl, fun br hbr => ?_⟩
    obtain rfl := List.mem_singleton.1 hbr
    exact nofun

/-- The graph with branches at the ends of the edges' sources. -/
def Graph.connected (g : Graph) (brs : Edge → List Branch) : List Edge → Graph
  | [] => g
  | e :: es => (g.branched e.source (brs e)).connected brs es

namespace Chart

variable {c c' : Chart} {b : BlockId} {block : Block} {v : Variable} {edges : List Edge}
  {brs : Edge → List Branch}

/-- Branches stay in place while other blocks change. -/
theorem Leads.advance {br : Branch} {o o' : List BlockId} (h : c.Leads b br)
    (ha : Advances o c o' c') (hb : c.graph.block? b = some block) : c'.Leads b br where
  reads v hv := ha.here hb (h.reads v hv)
  takes := ha.takes h.takes
  keeps t ht v hv := by
    have htakes := h.takes
    rw [ht] at htakes
    obtain ⟨next, hnext, -⟩ := htakes
    rw [ha.avail_eq t next hnext] at hv
    exact ha.here hb (h.keeps t ht v hv)

/-- The chart with branches at the ends of the edges' sources. -/
def connected (c : Chart) (brs : Edge → List Branch) (edges : List Edge) : Chart :=
  { c with graph := c.graph.connected brs edges }

/-- Edges that come from different open blocks, with branches that close them. -/
structure Closes (c : Chart) (brs : Edge → List Branch) (edges : List Edge) : Prop where
  nodup : (edges.map Edge.source).Nodup
  bare : ∀ e ∈ edges, c.Bare e.source
  closing : ∀ e ∈ edges, Closing (brs e)
  leads : ∀ e ∈ edges, ∀ br ∈ brs e, c.Leads e.source br

/-- When the first edge is closed, the others still can be. -/
theorem Closes.tail {e : Edge} {es : List Edge} (h : c.Closes brs (e :: es)) :
    (c.branched e.source (brs e)).Closes brs es := by
  have ha := advances_branched (h.bare e List.mem_cons_self) (h.closing e List.mem_cons_self)
  have hnodup := List.nodup_cons.1 (List.map_cons ▸ h.nodup)
  have hbare : ∀ e' ∈ es, ∃ block, c.graph.block? e'.source = some block ∧ block.branches = [] :=
    fun e' he' => h.bare e' (List.mem_cons_of_mem e he')
  refine ⟨hnodup.2, fun e' he' => ?_, fun e' he' => h.closing e' (List.mem_cons_of_mem e he'),
    fun e' he' br hbr => ?_⟩
  · obtain ⟨block, hb, hempty⟩ := hbare e' he'
    refine ⟨block, ha.frame _ block (fun hmem => hnodup.1 ?_) hb, hempty⟩
    exact List.mem_singleton.1 hmem ▸ List.mem_map_of_mem he'
  · obtain ⟨block, hb, -⟩ := hbare e' he'
    exact (h.leads e' (List.mem_cons_of_mem e he') br hbr).advance ha hb

/-- **All ways are closed**, and nothing else changes. -/
theorem Closes.connected (h : c.Closes brs edges) (hsound : c.Sound) : (c.connected brs edges).Sound
    ∧ Advances (edges.map Edge.source) c [] (c.connected brs edges) := by
  induction edges generalizing c with
  | nil => exact ⟨hsound, .refl nofun⟩
  | cons e es ih =>
    have hfirst := h.bare e List.mem_cons_self
    have hclosing := h.closing e List.mem_cons_self
    have ha := advances_branched hfirst hclosing
    obtain ⟨hsound', ha'⟩ := ih h.tail
      (hsound.branched hfirst hclosing fun br hbr => h.leads e List.mem_cons_self br hbr)
    refine ⟨hsound', ?_⟩
    -- the other sources stay open while the first edge is closed
    have hnodup := List.nodup_cons.1 (List.map_cons ▸ h.nodup)
    have hrest : ∀ b ∈ es.map Edge.source, c.Bare b := fun b hb => by
      obtain ⟨e', he', rfl⟩ := List.mem_map.1 hb
      exact h.bare e' (List.mem_cons_of_mem e he')
    have hbeside := ha.beside hrest fun b hb hmem => hnodup.1 (List.mem_singleton.1 hmem ▸ hb)
    have hall : Advances (es.map Edge.source ++ [e.source]) c [] _ :=
      hbeside.trans ha' (fun b hb => List.mem_append_left _ hb)
        (fun b hb => .inl (by simpa using hb)) nofun nofun
    exact hall.congr fun b => by simp [or_comm]

end Chart

/-! ## Meeting in a new block -/

theorem Graph.block?_connected_of_notMem {g : Graph} {brs : Edge → List Branch} {edges : List Edge}
    {b : BlockId} (hb : b ∉ edges.map Edge.source) :
    (g.connected brs edges).block? b = g.block? b := by
  induction edges generalizing g with
  | nil => rfl
  | cons e es ih =>
    rw [List.map_cons, List.mem_cons, not_or] at hb
    rw [Graph.connected, ih hb.2, Graph.block?_branched, if_neg (Ne.symm hb.1)]

theorem Graph.block?_connected {g : Graph} {brs : Edge → List Branch} {edges : List Edge} {e : Edge}
    {block : Block} (hnodup : (edges.map Edge.source).Nodup) (he : e ∈ edges)
    (hb : g.block? e.source = some block) : (g.connected brs edges).block? e.source
      = some { block with branches := block.branches ++ brs e } := by
  induction edges generalizing g with
  | nil => cases he
  | cons e' es ih =>
    rw [List.map_cons, List.nodup_cons] at hnodup
    rw [Graph.connected]
    rcases List.mem_cons.1 he with rfl | he
    · rw [block?_connected_of_notMem hnodup.1, Graph.block?_branched, if_pos rfl, hb,
        Option.map_some]
    · have hne : e'.source ≠ e.source := fun heq => hnodup.1 (heq ▸ List.mem_map_of_mem he)
      exact ih hnodup.2 he (by rw [Graph.block?_branched, if_neg hne, hb])

namespace Chart

variable {c c' : Chart} {b : BlockId} {block : Block} {v : Variable} {edges : List Edge}
  {brs : Edge → List Branch} {k : Nat} {env : Bindings}

/-- Edges that can be led into a new block with `k` parameters. -/
structure Meets (c : Chart) (k : Nat) (brs : Edge → List Branch) (edges : List Edge) : Prop where
  nonempty : edges ≠ []
  nodup : (edges.map Edge.source).Nodup
  bare : ∀ e ∈ edges, c.Bare e.source
  closing : ∀ e ∈ edges, Closing (brs e)
  enters : ∀ e ∈ edges, ∃ br ∈ brs e, br.target = .block c.next
  leads : ∀ e ∈ edges, ∀ br ∈ brs e, c.Leads e.source br
    ∨ (br.target = .block c.next ∧ br.args.length = k ∧ ∀ v ∈ br.uses, c.Here e.source v)

/-- The chart with a new block that is promised what is bound on all edges. -/
def openedFor (c : Chart) (edges : List Edge) (k : Nat) : Chart :=
  c.opened (fun v => ∀ e ∈ edges, c.Here e.source v) k

/-- The chart after the edges were led into a new block. -/
def met (c : Chart) (k : Nat) (brs : Edge → List Branch) (edges : List Edge) (env : Bindings) :
    Chart :=
  { (c.openedFor edges k).connected brs edges with
    block := c.next, env, closed := false }

/-- What is bound at all sources is bound in the new block. -/
theorem here_met {v : Variable} (hv : ∀ e ∈ edges, c.Here e.source v) :
    (c.met k brs edges env).Here c.next v := by
  refine .inl ?_
  have havail : (c.met k brs edges env).avail c.next
      = fun v => ∀ e ∈ edges, c.Here e.source v := avail_opened c _ k
  rw [havail]
  exact hv

namespace Meets

/-- After the block was opened, all edges can be closed. -/
theorem closes (h : c.Meets k brs edges) (hsound : c.Sound) :
    (c.openedFor edges k).Closes brs edges := by
  have ha := hsound.advances_opened (fun v => ∀ e ∈ edges, c.Here e.source v) k
  refine ⟨h.nodup, fun e he => ?_, h.closing, fun e he br hbr => ?_⟩
  · obtain ⟨block, hb, hempty⟩ := h.bare e he
    exact ⟨block, ha.frame _ block nofun hb, hempty⟩
  · obtain ⟨block, hb, -⟩ := h.bare e he
    rcases h.leads e he br hbr with hleads | ⟨htarget, hlen, hreads⟩
    · exact hleads.advance ha hb
    · refine ⟨fun v hv => ha.here hb (hreads v hv), ?_, fun t ht v hv => ?_⟩
      · rw [htarget, hlen]
        refine ⟨_, (hsound.block?_opened _ _ _).trans (if_pos rfl), ?_⟩
        rw [Graph.length_newParams]
      · -- the block was promised only what is bound at all sources
        rw [htarget] at ht
        obtain rfl := Target.block.inj ht
        rw [openedFor, avail_opened] at hv
        exact ha.here hb (hv e he)

theorem sound_openedFor (h : c.Meets k brs edges) (hsound : c.Sound) :
    (c.openedFor edges k).Sound := by
  obtain ⟨e, he⟩ := List.exists_mem_of_ne_nil _ h.nonempty
  exact hsound.opened k fun v hv => hsound.mem_boundVars (hv e he)

theorem sound (h : c.Meets k brs edges) (hsound : c.Sound) : (c.met k brs edges env).Sound := by
  exact ((h.closes hsound).connected (h.sound_openedFor hsound)).1.moved

/-- The ways lead on in the new block only. -/
theorem advances (h : c.Meets k brs edges) (hsound : c.Sound) :
    Advances (edges.map Edge.source) c [c.next] (c.met k brs edges env) := by
  have hclosed := ((h.closes hsound).connected (h.sound_openedFor hsound)).2
  have hsources : ∀ b ∈ edges.map Edge.source, c.Bare b := fun b hb => by
    obtain ⟨e, he, rfl⟩ := List.mem_map.1 hb
    exact h.bare e he
  have hopen :=
    (hsound.advances_opened (fun v => ∀ e ∈ edges, c.Here e.source v) k).beside hsources nofun
  have hnew : c.next ∉ edges.map Edge.source := fun hmem => by
    obtain ⟨block, hb, -⟩ := hsources _ hmem
    rw [block?_size] at hb
    cases hb
  rw [List.append_nil] at hopen
  have hall : Advances (edges.map Edge.source) c [c.next]
      ((c.openedFor edges k).connected brs edges) := by
    refine hopen.trans hclosed (fun b hb => List.mem_append_left _ hb) (fun b hb => ?_) nofun
      fun b hb => ?_
    · exact List.mem_append.1 hb
    · obtain rfl := List.mem_singleton.1 hb
      exact .inr ⟨List.mem_append_right _ hb, hnew⟩
  exact hall.moved

/-- The new block, before anything is added to it. -/
theorem block?_target (h : c.Meets k brs edges) (hsound : c.Sound) :
    (c.met k brs edges env).graph.block? c.next
      = some ⟨Graph.newParams c.graph.varCount k, [], []⟩ := by
  have hnew : c.next ∉ edges.map Edge.source := fun hmem => by
    obtain ⟨e, he, heq⟩ := List.mem_map.1 hmem
    obtain ⟨block, hb, -⟩ := h.bare e he
    rw [heq, block?_size] at hb
    cases hb
  have hsame : (c.met k brs edges env).graph.block? c.next
      = (c.openedFor edges k).graph.block? c.next :=
    Graph.block?_connected_of_notMem hnew
  exact hsame.trans ((hsound.block?_opened _ k _).trans (if_pos rfl))

/-- A source, when it is closed. -/
theorem block?_source (h : c.Meets k brs edges) (hsound : c.Sound) {e : Edge} (he : e ∈ edges)
    (hb : c.graph.block? e.source = some block) :
    (c.met k brs edges env).graph.block? e.source = some { block with branches := brs e } := by
  obtain ⟨block', hb', hempty⟩ := h.bare e he
  rw [hb] at hb'
  obtain rfl := Option.some.inj hb'
  have hframe := (hsound.advances_opened (fun v => ∀ e ∈ edges, c.Here e.source v) k).frame _ block
    nofun hb
  have hconnected : (c.met k brs edges env).graph.block? e.source
      = some { block with branches := block.branches ++ brs e } :=
    Graph.block?_connected h.nodup he hframe
  rw [hempty, List.nil_append] at hconnected
  exact hconnected

/-- The new block is entered from the sources. -/
theorem entered (h : c.Meets k brs edges) (hsound : c.Sound) :
    Entered c (c.met k brs edges env) := by
  intro b hnone hsome
  obtain ⟨e, he⟩ := List.exists_mem_of_ne_nil _ h.nonempty
  obtain ⟨block, hb, -⟩ := h.bare e he
  obtain ⟨br, hbr, htarget⟩ := h.enters e he
  obtain rfl : b = c.next := by
    by_cases hmem : b ∈ edges.map Edge.source
    · obtain ⟨e', he', rfl⟩ := List.mem_map.1 hmem
      obtain ⟨block', hb', -⟩ := h.bare e' he'
      rw [hb'] at hnone
      cases hnone
    · refine Decidable.by_contra fun hne => ?_
      have hsame : (c.met k brs edges env).graph.block? b = (c.openedFor edges k).graph.block? b :=
        Graph.block?_connected_of_notMem hmem
      have hold := hsame.trans ((hsound.block?_opened _ k _).trans ((if_neg hne).trans hnone))
      rw [hold] at hsome
      cases hsome
  refine ⟨e.source, Graph.lt_size_of_block? hb, _, h.block?_source hsound he hb, ?_⟩
  exact List.mem_filterMap.2 ⟨br, hbr, by rw [Branch.block?, htarget]⟩

/-- The parameters are bound in the new block. -/
theorem here_param (h : c.Meets k brs edges) (hsound : c.Sound) {i : Nat} (hi : i < k) :
    (c.met k brs edges env).Here c.next ⟨c.graph.varCount + i⟩ := by
  refine .inr ⟨_, h.block?_target hsound, List.mem_append_left _ ?_⟩
  simpa [Block.paramVars, Graph.newParams] using hi

end Meets

end Chart

/-! ## Joins and heads of loops -/

theorem Graph.branched_nil (g : Graph) (b : BlockId) : g.branched b [] = g := by
  have hblocks : (g.branched b []).blocks = g.blocks := by
    refine Array.ext_getElem? fun i => ?_
    simp only [branched, modifyBlock, Array.getElem?_modify]
    by_cases hi : b.index = i
    · cases g.blocks[i]? <;> simp [hi]
    · simp [hi]
  have hrest : g.branched b [] = { g with blocks := (g.branched b []).blocks } := rfl
  rw [hrest, hblocks]

namespace Chart

variable {c : Chart} {edges : List Edge} {live : Names} {b : BlockId}

theorem Sound.yields_branch (h : c.Sound) (hbare : c.Bare b) {target : BlockId}
    {args : List Operand} (hleads : c.Leads b (.jump target args)) :
    Yields (Drafting.branch b target args) c.toDraft ()
      (c.branched b [.jump target args]).toDraft := by
  refine Drafting.yields_branch.2 ⟨_, ?_, rfl⟩
  have hadd : (c.graph.branched b []).addBranch b (.jump target args)
      = .ok (c.graph.branched b _) :=
    h.addBranch hbare (by nofun) hleads
  rw [Graph.branched_nil] at hadd
  exact hadd

/-- An open block may be left by a branch with a condition and one without. -/
theorem Sound.yields_branches (h : c.Sound) (hbare : c.Bare b) {t t' : BlockId}
    {args args' : List Operand} {v : Variable}
    (hleads : c.Leads b ((Branch.jump t args).whenFalse v)) (hleads' : c.Leads b (.jump t' args')) :
    c.graph.addBranch b ((Branch.jump t args).whenFalse v)
        = .ok (c.graph.branched b [(Branch.jump t args).whenFalse v])
      ∧ (c.graph.branched b [(Branch.jump t args).whenFalse v]).addBranch b (.jump t' args')
        = .ok (c.graph.branched b [(Branch.jump t args).whenFalse v, .jump t' args']) := by
  have hadd : (c.graph.branched b []).addBranch b ((Branch.jump t args).whenFalse v)
      = .ok (c.graph.branched b _) := h.addBranch hbare (by nofun) hleads
  rw [Graph.branched_nil] at hadd
  refine ⟨hadd, h.addBranch hbare (fun br hbr => ?_) hleads'⟩
  obtain rfl := List.mem_singleton.1 hbr
  exact nofun

theorem Sound.yields_connect (h : c.Sound) {e : Edge} (hbare : c.Bare e.source) {target : BlockId}
    {args : List Operand} (hleads : ∀ br ∈ e.branches target args, c.Leads e.source br) :
    Yields (connect e target args) c.toDraft ()
      (c.branched e.source (e.branches target args)).toDraft := by
  unfold connect
  rcases hu : e.unlessTaken with _ | ⟨v, other⟩
  · rw [Edge.branches_none hu] at hleads ⊢
    exact h.yields_branch hbare (hleads _ List.mem_cons_self)
  · rw [Edge.branches_some hu] at hleads ⊢
    obtain ⟨hfirst, hsecond⟩ := h.yields_branches hbare (hleads _ List.mem_cons_self)
      (hleads _ (List.mem_cons_of_mem _ List.mem_cons_self))
    rw [yields_bind]
    exact ⟨(), _, yields_branchUnless.2 ⟨_, hfirst, rfl⟩,
      Drafting.yields_branch.2 ⟨_, hsecond, rfl⟩⟩

/-- The loop over the edges closes all of them. -/
theorem Closes.yields {target : BlockId} {args : Edge → List Operand}
    {f : Edge → PUnit → Drafting (ForInStep PUnit)}
    (h : c.Closes (fun e => e.branches target (args e)) edges) (hsound : c.Sound)
    (hf : ∀ e u, f e u = do connect e target (args e); pure (.yield PUnit.unit)) :
    Yields (forIn edges PUnit.unit f) c.toDraft ()
      (c.connected (fun e => e.branches target (args e)) edges).toDraft := by
  induction edges generalizing c with
  | nil => exact yields_pure.2 ⟨rfl, rfl⟩
  | cons e es ih =>
    have hbare := h.bare e List.mem_cons_self
    have hleads := h.leads e List.mem_cons_self
    have hrest := ih h.tail (hsound.branched hbare (h.closing e List.mem_cons_self) hleads)
    rw [List.forIn_cons, hf, bind_assoc, yields_bind]
    exact ⟨(), _, hsound.yields_connect hbare hleads, hrest⟩

/-- An edge departs from an open block with what is bound there. If it leaves when a condition is
false, the block that it goes to otherwise takes no arguments and was promised no more. -/
structure Departs (c : Chart) (e : Edge) : Prop where
  bare : c.Bare e.source
  env : ∀ n op, e.env.get? n = some op → c.Reads e.source op
  value : ∀ op, e.value = some op → c.Reads e.source op
  unlessTaken : ∀ v other, e.unlessTaken = some (v, other) → c.Here e.source v
    ∧ (∃ block, c.graph.block? other = some block ∧ block.params = [])
    ∧ ∀ w, c.avail other w → c.Here e.source w

theorem reads_const (c : Chart) (b : BlockId) (x : Value) : c.Reads b (.const x) := nofun

theorem reads_passed {env : Bindings} (h : ∀ n op, env.get? n = some op → c.Reads b op)
    (n : String) : c.Reads b (env.passed n) := by
  unfold Bindings.passed
  rcases hn : env.get? n with _ | op
  · exact c.reads_const b _
  · exact h n op hn

/-- Edges that depart meet in a new block with as many parameters as they pass arguments. -/
theorem Meets.of_departs {k : Nat} {args : Edge → List Operand} (hne : edges ≠ [])
    (hnodup : (edges.map Edge.source).Nodup) (hdeparts : ∀ e ∈ edges, c.Departs e)
    (hargs : ∀ e ∈ edges, (args e).length = k ∧ ∀ op ∈ args e, c.Reads e.source op) :
    c.Meets k (fun e => e.branches c.next (args e)) edges := by
  have huses : ∀ e ∈ edges, ∀ v ∈ (args e).filterMap Operand.var?, c.Here e.source v := by
    intro e he v hv
    obtain ⟨op, hop, hv⟩ := List.mem_filterMap.1 hv
    exact (hargs e he).2 op hop v hv
  -- an edge ends in a jump to the join, and before it there may be a conditional branch past it
  refine ⟨hne, hnodup, fun e he => (hdeparts e he).bare, fun e _ => e.closing _ _, fun e he => ?_,
    fun e he br hbr => ?_⟩
  · rcases hu : e.unlessTaken with _ | ⟨v, other⟩
    · rw [Edge.branches_none hu]
      exact ⟨_, List.mem_cons_self, rfl⟩
    · rw [Edge.branches_some hu]
      exact ⟨_, List.mem_cons_self, rfl⟩
  · have hdep := (hdeparts e he).unlessTaken
    rcases hu : e.unlessTaken with _ | ⟨v, other⟩
    · rw [Edge.branches_none hu] at hbr
      obtain rfl := List.mem_singleton.1 hbr
      exact .inr ⟨rfl, (hargs e he).1, huses e he⟩
    · rw [Edge.branches_some hu] at hbr
      obtain ⟨hv, ⟨block, hb, hparams⟩, hother⟩ := hdep v other hu
      rcases List.mem_cons.1 hbr with rfl | hbr
      · refine .inr ⟨rfl, (hargs e he).1, fun w hw => ?_⟩
        rcases List.mem_cons.1 hw with rfl | hw
        · exact hv
        · exact huses e he w hw
      · obtain rfl := List.mem_singleton.1 hbr
        refine .inl ⟨nofun, ⟨block, hb, by rw [hparams]; rfl⟩, fun t ht w hw => ?_⟩
        obtain rfl := Target.block.inj ht
        exact hother w hw

end Chart

namespace Edge

variable (edges : List Edge) (live : Names)

/-- The names that become parameters where the edges are joined. -/
def parameters : Names := threaded (common? edges) live.contains (names edges)

/-- Some edge has a value, so the block takes one. -/
def valued : Bool := edges.any (·.value.isSome)

/-- How many parameters the block has. -/
def arity : Nat := (parameters edges live).length + if valued edges then 1 else 0

/-- What an edge passes to the block. -/
def arguments (e : Edge) : List Operand :=
  let passed := (parameters edges live).map e.env.passed
  if valued edges then passed ++ [e.value.getD (.const .nothing)] else passed

/-- What the names stand for in the block, if its parameters are the variables from `i` on. -/
def bindings (i : Nat) : Bindings := threadEnv (common? edges) live.contains i [] (names edges)

/-- What the construct is worth. -/
def outcome (i : Nat) : Option Operand :=
  if valued edges then some (.var ⟨i + (parameters edges live).length⟩) else none

theorem length_arguments (e : Edge) : (arguments edges live e).length = arity edges live := by
  unfold arguments arity
  dsimp only
  split <;> simp

end Edge

namespace Chart

variable {c : Chart} {edges : List Edge} {live : Names}

/-- The chart after the edges were joined. -/
def joined (c : Chart) (edges : List Edge) (live : Names) : Chart :=
  c.met (Edge.arity edges live)
    (fun e => e.branches c.next (Edge.arguments edges live e)) edges
    (Edge.bindings edges live c.graph.varCount)

theorem meets_join (live : Names) (hne : edges ≠ []) (hnodup : (edges.map Edge.source).Nodup)
    (hdeparts : ∀ e ∈ edges, c.Departs e) : c.Meets (Edge.arity edges live)
      (fun e => e.branches c.next (Edge.arguments edges live e)) edges := by
  refine .of_departs hne hnodup hdeparts fun e he => ⟨Edge.length_arguments edges live e, ?_⟩
  have hpassed : ∀ op ∈ (Edge.parameters edges live).map e.env.passed, c.Reads e.source op := by
    intro op hop
    obtain ⟨n, -, rfl⟩ := List.mem_map.1 hop
    exact reads_passed (hdeparts e he).env n
  intro op hop
  unfold Edge.arguments at hop
  dsimp only at hop
  split at hop
  · rcases List.mem_append.1 hop with hop | hop
    · exact hpassed op hop
    · obtain rfl := List.mem_singleton.1 hop
      rcases hv : e.value with _ | value
      · exact c.reads_const e.source _
      · exact (hdeparts e he).value value hv
  · exact hpassed op hop

/-- **Edges that depart are joined.** -/
theorem yields_join (hsound : c.Sound) (hne : edges ≠ []) (hnodup : (edges.map Edge.source).Nodup)
    (hdeparts : ∀ e ∈ edges, c.Departs e) : Yields (join edges live) c.toDraft
      (Edge.outcome edges live c.graph.varCount) (c.joined edges live).toDraft := by
  have hmeets := meets_join live hne hnodup hdeparts
  have hcloses := hmeets.closes hsound
  have hopened := hmeets.sound_openedFor hsound
  have hself : (c.graph.addBlock.1.block? c.next).isSome := by
    rw [block?_addBlock_next]
    rfl
  have hcoherent := hsound.coherent.addBlock
  have hthread := yields_threadStep (Edge.common? edges) live.contains
    (d := c.toDraft) hself hcoherent (Edge.names edges) [] 0
  rw [Nat.zero_add, Nat.add_zero] at hthread
  unfold join
  rw [if_neg (by simpa using hne)]
  refine yields_bind.2 ⟨_, _, yields_openBlock.2 ⟨rfl, rfl⟩, yields_bind.2 ⟨_, _, hthread, ?_⟩⟩
  -- with a value or without, the edges are closed after the last parameter
  by_cases hvalued : Edge.valued edges = true
  · have harity : Edge.arity edges live = (Edge.parameters edges live).length + 1 := by
      rw [Edge.arity, if_pos hvalued]
    have houtcome : Edge.outcome edges live c.graph.varCount
        = some (.var ⟨c.graph.varCount + (Edge.parameters edges live).length⟩) := if_pos hvalued
    have hparam :=
      yields_withParams (d := c.toDraft) hself hcoherent (Edge.parameters edges live).length
    have hany : edges.any (·.value.isSome) = true := hvalued
    rw [if_pos hany, houtcome, joined, met, harity]
    rw [harity] at hcloses hopened
    refine yields_bind.2 ⟨_, _, hparam, yields_bind.2 ⟨_, _, yields_pure.2 ⟨rfl, rfl⟩, ?_⟩⟩
    refine yields_bind.2 ⟨(), _, hcloses.yields hopened fun e _ => ?_, yields_bind.2 ⟨(), _,
      yields_enter.2 rfl, yields_pure.2 ⟨rfl, rfl⟩⟩⟩
    rw [Edge.arguments, if_pos hvalued]
    rfl
  · have harity : Edge.arity edges live = (Edge.parameters edges live).length := by
      rw [Edge.arity, if_neg hvalued, Nat.add_zero]
    have houtcome : Edge.outcome edges live c.graph.varCount = none := if_neg hvalued
    have hany : ¬edges.any (·.value.isSome) = true := hvalued
    rw [if_neg hany, houtcome, joined, met, harity]
    rw [harity] at hcloses hopened
    refine yields_bind.2 ⟨_, _, yields_pure.2 ⟨rfl, rfl⟩, ?_⟩
    refine yields_bind.2 ⟨(), _, hcloses.yields hopened fun e _ => ?_, yields_bind.2 ⟨(), _,
      yields_enter.2 rfl, yields_pure.2 ⟨rfl, rfl⟩⟩⟩
    rw [Edge.arguments, if_neg hvalued]
    rfl

/-- A variable that is common to the edges is bound at all of them. -/
theorem here_common {n : String} {v : Variable} (hdeparts : ∀ e ∈ edges, c.Departs e)
    (h : Edge.common? edges n = some (.var v)) : ∀ e ∈ edges, c.Here e.source v := by
  obtain ⟨-, hall⟩ := Option.filter_eq_some_iff.1 h
  intro e he
  have heq := List.all_eq_true.1 hall e he
  refine (hdeparts e he).env n (.var v) ?_ v rfl
  rcases hget : e.env.get? n with _ | op
  · rw [hget] at heq
    cases heq
  · rw [hget] at heq
    cases op with
    | var w =>
      have hwv : (w == v) = true := heq
      rw [eq_of_beq hwv]
    | const x => cases heq
    | global m => cases heq

/-- Where no name is read later, names that have no common operand are forgotten. -/
theorem env_joined {n : String} {op : Operand} (hget : (c.joined edges []).env.get? n = some op) :
    Edge.common? edges n = some op := by
  rcases get?_threadEnv (Edge.common? edges) (List.contains []) (Edge.names edges) []
    c.graph.varCount n with ⟨hold, -⟩ | ⟨-, op, hcommon, hnew⟩ | ⟨-, -, hkeep, -⟩
  · cases hold.symm.trans hget
  · exact hcommon.trans (hnew.symm.trans hget)
  · cases hkeep

/-- What is common to edges stands for the name on the first of them. -/
theorem common?_cons {e : Edge} {es : List Edge} {n : String} {op : Operand}
    (h : Edge.common? (e :: es) n = some op) : e.env.get? n = some op :=
  (Option.filter_eq_some_iff.1 h).1

/-- After a join the names stand for what is bound. -/
theorem reads_joined (hsound : c.Sound) (hne : edges ≠ []) (hnodup : (edges.map Edge.source).Nodup)
    (hdeparts : ∀ e ∈ edges, c.Departs e) {n : String} {op : Operand}
    (hget : (c.joined edges live).env.get? n = some op) :
    (c.joined edges live).Reads (c.joined edges live).block op := by
  have hmeets := meets_join live hne hnodup hdeparts
  intro v hv
  obtain rfl : op = .var v := by
    cases op with
    | var w => rw [Option.some.inj hv]
    | const x => cases hv
    | global m => cases hv
  rcases get?_threadEnv (Edge.common? edges) live.contains (Edge.names edges) []
    c.graph.varCount n with ⟨hold, -⟩ | ⟨-, op, hcommon, hnew⟩ | ⟨-, -, -, j, hj, hparam⟩
  · cases hold.symm.trans hget
  · obtain rfl := Option.some.inj (hnew.symm.trans hget)
    exact here_met (here_common hdeparts hcommon)
  · obtain rfl := Operand.var.inj (Option.some.inj (hparam.symm.trans hget))
    refine hmeets.here_param hsound ?_
    have hlt := (List.getElem?_eq_some_iff.1 hj).1
    exact Nat.lt_of_lt_of_le hlt (Nat.le_add_right _ _)

/-- What the joined construct is worth is bound. -/
theorem reads_outcome (hsound : c.Sound) (hne : edges ≠ []) (hnodup : (edges.map Edge.source).Nodup)
    (hdeparts : ∀ e ∈ edges, c.Departs e) {op : Operand}
    (hop : Edge.outcome edges live c.graph.varCount = some op) :
    (c.joined edges live).Reads (c.joined edges live).block op := by
  have hmeets := meets_join live hne hnodup hdeparts
  unfold Edge.outcome at hop
  split at hop
  · next hvalued =>
    obtain rfl := Option.some.inj hop
    intro v hv
    obtain rfl := Option.some.inj hv
    refine hmeets.here_param hsound ?_
    rw [Edge.arity, if_pos hvalued]
    exact Nat.lt_succ_self _
  · cases hop

/-! ### Heads of loops -/

/-- The only way into a loop at first. -/
def approach (c : Chart) : Edge := ⟨c.block, c.env, none, none⟩

/-- What the names stand for in a loop. -/
def carriedEnv (c : Chart) (carried : Names) : Bindings :=
  threadEnv (fun _ => none) (fun _ => true) c.graph.varCount c.env carried

theorem threaded_all (names : Names) : threaded (fun _ => none) (fun _ => true) names = names :=
  List.filter_eq_self.2 fun _ _ => rfl

/-- The chart after the head of a loop was opened. -/
def looped (c : Chart) (carried : Names) : Chart :=
  c.met carried.length (fun e => e.branches c.next (carried.map c.env.passed)) [c.approach]
    (c.carriedEnv carried)

theorem meets_loop (hbare : c.Bare c.block)
    (henv : ∀ n op, c.env.get? n = some op → c.Reads c.block op) (carried : Names) :
    c.Meets carried.length
      (fun e => e.branches c.next (carried.map c.env.passed)) [c.approach] := by
  refine .of_departs nofun (List.pairwise_singleton _ _) (fun e he => ?_) fun e he =>
    ⟨List.length_map _, ?_⟩
  · obtain rfl := List.mem_singleton.1 he
    exact ⟨hbare, henv, nofun, nofun⟩
  · obtain rfl := List.mem_singleton.1 he
    intro op hop
    obtain ⟨n, -, rfl⟩ := List.mem_map.1 hop
    exact reads_passed henv n

/-- **A loop is entered.** -/
theorem yields_enterLoop (hsound : c.Sound) (hbare : c.Bare c.block)
    (henv : ∀ n op, c.env.get? n = some op → c.Reads c.block op) (carried : Names) :
    Yields (enterLoop carried) c.toDraft c.next (c.looped carried).toDraft := by
  have hmeets := meets_loop hbare henv carried
  have hcloses := hmeets.closes hsound
  have hself : (c.graph.addBlock.1.block? c.next).isSome := by
    rw [block?_addBlock_next]
    rfl
  have hthread := yields_threadStep (fun _ => none) (fun _ => true) (d := c.toDraft)
    hself hsound.coherent.addBlock carried c.env 0
  rw [Nat.zero_add, Nat.add_zero, threaded_all] at hthread
  unfold enterLoop
  refine yields_bind.2 ⟨_, _, yields_get.2 ⟨rfl, rfl⟩,
    yields_bind.2 ⟨_, _, yields_openBlock.2 ⟨rfl, rfl⟩,
    yields_bind.2 ⟨_, _, hthread,
    yields_bind.2 ⟨(), _, ?_,
    yields_bind.2 ⟨(), _, yields_enter.2 rfl,
    yields_pure.2 ⟨rfl, rfl⟩⟩⟩⟩⟩⟩
  have happroach : c.approach ∈ [c.approach] := List.mem_cons_self
  exact (hmeets.sound_openedFor hsound).yields_branch (hcloses.bare _ happroach)
    (hcloses.leads _ happroach _ List.mem_cons_self)

/-- In a loop the names stand for what is bound. -/
theorem reads_looped (hsound : c.Sound) (hbare : c.Bare c.block)
    (henv : ∀ n op, c.env.get? n = some op → c.Reads c.block op) {carried : Names} {n : String}
    {op : Operand} (hget : (c.looped carried).env.get? n = some op) :
    (c.looped carried).Reads (c.looped carried).block op := by
  have hmeets := meets_loop hbare henv carried
  rcases get?_threadEnv (fun _ => none) (fun _ => true) carried c.env c.graph.varCount n
    with ⟨hold, -⟩ | ⟨-, op, hnone, -⟩ | ⟨-, -, -, j, hj, hparam⟩
  · intro v hv
    refine here_met fun e he => ?_
    obtain rfl := List.mem_singleton.1 he
    exact henv n op (hold.symm.trans hget) v hv
  · cases hnone
  · obtain rfl := Option.some.inj (hparam.symm.trans hget)
    intro v hv
    obtain rfl := Option.some.inj hv
    rw [threaded_all] at hj
    exact hmeets.here_param hsound (List.getElem?_eq_some_iff.1 hj).1

end Chart

end Interpose
