import Interpose.Proofs.Dispatch.Choice
import Interpose.Proofs.Graph.Routing
import Interpose.Proofs.Lowering.Onward
import Interpose.Proofs.Host.Depth

/-!
# Hosts without loops

A host is without loops if its functions are, and if its hooks only give back the graphs that they
get, with calls routed or not. All graphs that such a host runs are then graphs of functions without
loops. It stays without loops when functions without loops are defined and such hooks are
registered, whatever else is done.

A hook may still remember the graph of a function that has been defined anew since. So what hooks
remember has to be without loops, too.
-/

set_option autoImplicit false

namespace Interpose

variable {V : Vocabulary}

/-! ## Graphs -/

/-- The graph is that of a function without loops, but for the route of its calls. -/
def Graph.Loopless (g : Graph) : Prop :=
  ∃ p g₀ k, p.definition.loopless = true ∧ lower p = .ok g₀ ∧ g.IsThrough k g₀

namespace Graph.Loopless

variable {g : Graph}

theorem of_lower {p : Provenance} (hp : p.definition.loopless = true) (hg : lower p = .ok g) :
    g.Loopless :=
  ⟨p, g, ⟨0⟩, hp, hg, .inl rfl⟩

/-- No backend changes such a graph. -/
theorem prepare_eq_ok (h : g.Loopless) (backend : Backend) : backend.prepare g = .ok g := by
  obtain ⟨p, g₀, k, -, hlower, hthrough⟩ := h
  exact prepare_isThrough hlower hthrough backend

theorem forward (h : g.Loopless) : g.Forward := by
  obtain ⟨p, g₀, k, hp, hlower, hthrough⟩ := h
  obtain ⟨c, hc⟩ := Chart.exists_lowers p.definition p.file
  rw [lower, hc.yields] at hlower
  obtain rfl := Except.ok.inj hlower
  have hforward : Graph.Forward { c.graph with provenance := some p } := hc.forward hp
  rcases hthrough with rfl | rfl
  · exact hforward
  · -- routing leaves the branches as they are
    exact fun b t hfollows => hforward b t ((sameOutline_routeCalls _ k).symm.follows hfollows)

end Graph.Loopless

/-- A unit that was decided for is without loops. -/
def Decision.Loopless : Decision → Prop
  | .unit u => u.graph.Loopless
  | .direct => True

/-- What is remembered is without loops. -/
def Table.Loopless (t : Table Signature Decision) : Prop :=
  ∀ sig d, t.get? sig = some d → d.Loopless

namespace Table.Loopless

variable {t : Table Signature Decision}

theorem empty : Table.Loopless (.empty : Table Signature Decision) := by
  intro sig d hd
  rw [Table.get?_empty] at hd
  cases hd

theorem insert (h : Table.Loopless t) {sig : Signature} {d : Decision} (hd : d.Loopless) :
    Table.Loopless (t.insert sig d) := by
  intro sig' d' hd'
  rw [Table.get?_insert] at hd'
  split at hd'
  · exact Option.some.inj hd' ▸ hd
  · exact h sig' d' hd'

theorem erase (h : Table.Loopless t) (sig : Signature) : Table.Loopless (t.erase sig) := by
  intro sig' d' hd'
  rw [Table.get?_erase] at hd'
  split at hd'
  · cases hd'
  · exact h sig' d' hd'

end Table.Loopless

/-! ## Functions, transforms and hooks -/

/-- The body is a primitive operator or a source function without loops. -/
def Body.Loopless : Body V → Prop
  | .source d _ => d.loopless = true
  | .primitive _ => True
  | .native _ => False

/-- The request defines and registers nothing, and runs nothing but by a call. -/
def Request.Plain : Request V → Prop
  | .resolve _ | .funcId _ | .funcName _ | .setGlobal _ _
  | .hook _ | .refresh _ _ | .provenance _ | .graphOf _
  | .compile _ | .call _ _ => True
  | .define _ _ | .defineNative _ _ | .installPrelude
  | .registerHook _ | .invoke _ _ | .hookCall _ _
  | .hookGraph _ _ => False

/-- In the end the program gives back the graph, with its calls routed or not, or it declines. On
the way it may use the memory and make plain requests. -/
inductive Prog.GivesBack (g : Graph) : Prog V (Option Graph) → Prop
  | graph {g' : Graph} {k : HookId} : g'.IsThrough k g → GivesBack g (.done (some g'))
  | decline : GivesBack g (.done none)
  | fail (e : Fault) : GivesBack g (.fail e)
  | read {next : V.Memory → Prog V (Option Graph)} :
    (∀ m, GivesBack g (next m)) → GivesBack g (.read next)
  | write {m : V.Memory} {next : Prog V (Option Graph)} :
    GivesBack g next → GivesBack g (.write m next)
  | ask {r : Request V} {next : Except Fault r.Answer → Prog V (Option Graph)} :
    r.Plain → (∀ answer, GivesBack g (next answer)) → GivesBack g (.ask r next)

/-- The transform gives back the graphs that it gets. -/
def Embedding.GivesBack (E : Embedding V) (t : V.Transform) : Prop :=
  ∀ o g, (E.transform t o g).GivesBack g

/-- What is done with calls is left to a transform that gives back what it gets. -/
def Handler.Loopless (E : Embedding V) : Handler V → Prop
  | .transform t => E.GivesBack t
  | .native _ => False

/-- The rules of a hook, and what it remembers. -/
structure Hook.Loopless (E : Embedding V) (hook : Hook V) : Prop where
  rules : ∀ r ∈ hook.rules, r.handler.Loopless E
  remembers : Table.Loopless hook.decisions

theorem Hook.Loopless.handler {E : Embedding V} {hook : Hook V} (h : hook.Loopless E)
    {sig : Signature} {handler : Handler V} (hhandler : hook.handler sig = .ok handler) :
    ∃ t, handler = .transform t ∧ E.GivesBack t := by
  unfold Hook.handler at hhandler
  rcases hselect : select hook.rules sig with _ | r
  all_goals
    rw [hselect] at hhandler
    cases hhandler
  have hrule := h.rules r (select_mem hselect).1
  rcases hr : r.handler with t | n
  all_goals rw [hr] at hrule
  · exact ⟨t, rfl, hrule⟩
  · exact hrule.elim

/-! ## Hosts -/

namespace Host

/-- Functions and hooks are without loops. -/
structure Loopless (E : Embedding V) (h : Host V) : Prop where
  functions : ∀ fn ∈ h.functions, fn.body.Loopless
  hooks : ∀ hook ∈ h.hooks, hook.Loopless E

/-- And so is what is kept for functions, while that many calls are in progress. -/
structure LooplessAt (E : Embedding V) (depth limit : Nat) (h : Host V) :
    Prop extends Loopless E h where
  compiled : ∀ f u, h.compiled.get? f = some u → u.graph.Loopless
  counts : h.Counts depth limit

variable {E : Embedding V} {h h' : Host V} {d m : Nat}

theorem Loopless.function (hh : h.Loopless E) {f : FuncId} {fn : Function V}
    (hf : h.function? f = some fn) :
    fn.body.Loopless := hh.functions fn (Array.mem_of_getElem? hf)

theorem Loopless.body (hh : h.Loopless E) {f : FuncId} {fn : Function V}
    (hf : h.function f = .ok fn) : fn.body.Loopless := by
  unfold Host.function at hf
  split at hf
  · next hget =>
    cases hf
    exact hh.function hget
  · cases hf

theorem Loopless.hook (hh : h.Loopless E) {k : HookId} {hook : Hook V} (hk : h.hook k = .ok hook) :
    hook.Loopless E := by
  unfold Host.hook at hk
  split at hk
  · next hook' hget =>
    cases hk
    exact hh.hooks hook (Array.mem_of_getElem? hget)
  · cases hk

theorem Loopless.definition (hh : h.Loopless E) {f : FuncId} {name file : String}
    {d : Source.Function} (hf : h.function? f = some ⟨name, .source d file⟩) : d.loopless = true :=
  hh.function hf

/-- A graph that comes from a function is without loops. -/
theorem Loopless.graphOf (hh : h.Loopless E) {f : FuncId} {g : Graph} (hg : h.graphOf f = .ok g) :
    g.Loopless := by
  obtain ⟨name, d, file, hf⟩ := isSource_of_graphOf hg
  rw [graphOf_eq_lower hf] at hg
  exact .of_lower (hh.definition hf) hg

theorem Loopless.provenance (hh : h.Loopless E) {sig : Signature} {p : Provenance}
    (hp : h.provenance sig = .ok p) : p.definition.loopless = true := by
  unfold Host.provenance at hp
  split at hp
  · split at hp
    · next hf =>
      split at hp
      · cases hp
        exact hh.definition hf
      · cases hp
    · cases hp
  · cases hp

/-! ### Changes -/

/-- Names, the memory and the numbers do not matter, apart from the count of calls. -/
theorem LooplessAt.congr (hh : h.LooplessAt E d m) {d' m' : Nat}
    (hfunctions : h'.functions = h.functions) (hhooks : h'.hooks = h.hooks)
    (hcompiled : h'.compiled = h.compiled) (hcounts : h'.Counts d' m') : h'.LooplessAt E d' m' where
  functions := hfunctions ▸ hh.functions
  hooks := hhooks ▸ hh.hooks
  compiled := hcompiled ▸ hh.compiled
  counts := hcounts

theorem LooplessAt.compile (hh : h.LooplessAt E d m) {g : Graph} {u : Compiled}
    (hcompile : h.compile g = .ok (h', u)) : h'.LooplessAt E d m := by
  obtain ⟨rfl, -⟩ := compile_apply hcompile
  exact hh.congr rfl rfl rfl ⟨hh.counts.depth, hh.counts.limit⟩

theorem LooplessAt.keep (hh : h.LooplessAt E d m) {f : FuncId} {u : Compiled}
    (hu : u.graph.Loopless) :
    ({ h with compiled := h.compiled.insert f u } : Host V).LooplessAt E d m where
  functions := hh.functions
  hooks := hh.hooks
  compiled f' u' hu' := by
    have hget : (h.compiled.insert f u).get? f' = some u' := hu'
    rw [Table.get?_insert] at hget
    split at hget
    · exact Option.some.inj hget ▸ hu
    · exact hh.compiled f' u' hget
  counts := ⟨hh.counts.depth, hh.counts.limit⟩

theorem LooplessAt.modifyDecisions (hh : h.LooplessAt E d m) (k : HookId)
    {f : Table Signature Decision → Table Signature Decision}
    (hf : ∀ t, Table.Loopless t → Table.Loopless (f t)) :
    (h.modifyDecisions k f).LooplessAt E d m where
  functions := hh.functions
  hooks hook hhook := by
    obtain ⟨i, hi⟩ := Array.mem_iff_getElem?.1 hhook
    have hget := (h.hook?_modifyDecisions k ⟨i⟩ f).symm.trans hi
    split at hget
    · obtain ⟨old, hold, rfl⟩ := Option.map_eq_some_iff.1 hget
      have hloopless := hh.hooks old (Array.mem_of_getElem? hold)
      exact ⟨hloopless.rules, hf _ hloopless.remembers⟩
    · exact hh.hooks hook (Array.mem_of_getElem? hget)
  compiled := hh.compiled
  counts := ⟨hh.counts.depth, hh.counts.limit⟩

theorem LooplessAt.refresh (hh : h.LooplessAt E d m) {k : HookId} {sig : Option Signature}
    {found : Bool} (hrefresh : h.refresh k sig = .ok (h', found)) : h'.LooplessAt E d m := by
  unfold Host.refresh at hrefresh
  rcases hhook : h.hook k with e | hook
  all_goals rw [hhook] at hrefresh
  · cases hrefresh
  · rcases sig with _ | sig
    all_goals cases hrefresh
    · exact hh.modifyDecisions k fun _ _ => .empty
    · exact hh.modifyDecisions k fun _ ht => ht.erase sig

theorem Loopless.addFunction (hh : h.Loopless E) {fn : Function V} (hfn : fn.body.Loopless) :
    (h.addFunction fn).1.Loopless E where
  functions fn' hfn' := (Array.mem_push.1 hfn').elim (hh.functions fn') fun heq => heq ▸ hfn
  hooks := hh.hooks

theorem LooplessAt.install (hh : h.LooplessAt E d m) {fn : Function V} (hfn : fn.body.Loopless)
    {f : FuncId} (hinstall : h.install fn = .ok (h', f)) : h'.LooplessAt E d m := by
  have hcounts : h'.Counts d m := firm_counts.install h fn h' f hh.counts hinstall
  unfold Host.install at hinstall
  split at hinstall
  · split at hinstall
    · cases hinstall
      refine ⟨⟨fun fn' hfn' => ?_, hh.hooks⟩, fun f' u hu => ?_, hcounts⟩
      · exact (Array.mem_or_eq_of_mem_setIfInBounds hfn').elim (hh.functions fn') fun heq =>
          heq ▸ hfn
      · have hget : (h.compiled.erase f).get? f' = some u := hu
        rw [Table.get?_erase] at hget
        split at hget
        · cases hget
        · exact hh.compiled f' u hget
    · cases hinstall
  · cases hinstall
  · cases hinstall
    exact ⟨hh.toLoopless.addFunction hfn, hh.compiled, hcounts⟩

theorem LooplessAt.installAll (hh : h.LooplessAt E d m) {fns : List (Function V)}
    (hfns : ∀ fn ∈ fns, fn.body.Loopless) : (h.installAll fns).1.LooplessAt E d m := by
  induction fns generalizing h with
  | nil => exact hh
  | cons fn rest ih =>
    unfold Host.installAll
    rcases hinstall : h.install fn with e | ⟨h₁, f⟩
    · exact hh
    · exact ih (hh.install (hfns fn List.mem_cons_self) hinstall) fun fn' hfn' =>
        hfns fn' (List.mem_cons_of_mem fn hfn')

theorem LooplessAt.define (hh : h.LooplessAt E d m) {file src : String}
    (hfns : ∀ fns : List (Function V), sourceFunctions file src = .ok fns →
      ∀ fn ∈ fns, fn.body.Loopless) :
    (h.define file src).1.LooplessAt E d m := by
  unfold Host.define
  rcases hsource : sourceFunctions file src with e | fns
  · exact hh
  · exact hh.installAll (hfns fns hsource)

theorem loopless_preludeFunctions :
    ∀ fn ∈ (preludeFunctions : List (Function V)), fn.body.Loopless := by
  intro fn hfn
  obtain ⟨p, -, rfl⟩ := List.mem_map.1 hfn
  exact trivial

theorem LooplessAt.registerHook (hh : h.LooplessAt E d m) {plan : HookPlan V}
    (hplan : ∀ r ∈ plan.rules, r.handler.Loopless E) :
    (h.registerHook plan).1.LooplessAt E d m where
  functions := hh.functions
  hooks hook hhook := by
    rcases Array.mem_push.1 hhook with hhook | rfl
    · exact hh.hooks hook hhook
    · exact ⟨hplan, .empty⟩
  compiled := hh.compiled
  counts := ⟨hh.counts.depth, hh.counts.limit⟩

/-! ### Hosts without programs -/

theorem loopless_bare (backend : Backend) (maxDepth : Nat) (memory : V.Memory) :
    (bare backend maxDepth memory : Host V).Loopless E where
  functions := nofun
  hooks := nofun

theorem loopless_create (backend : Backend) (maxDepth : Nat) (memory : V.Memory) :
    (create backend maxDepth memory : Host V).Loopless E := by
  have hall : ∀ fns : List (Function V), (∀ fn ∈ fns, fn.body.Loopless) →
      ∀ h : Host V, h.Loopless E →
      (fns.foldl (fun h fn => (h.addFunction fn).1) h).Loopless E := by
    intro fns
    induction fns with
    | nil => exact fun _ h hh => hh
    | cons fn rest ih =>
      exact fun hfns h hh => ih (fun fn' hfn' => hfns fn' (List.mem_cons_of_mem fn hfn')) _
        (hh.addFunction (hfns fn List.mem_cons_self))
  exact hall _ loopless_preludeFunctions _ (loopless_bare backend maxDepth memory)

/-- In a host that has come about by requests all that is kept is without loops if the functions
are. -/
theorem Loopless.at_reached (hh : h.Loopless E) (hreached : h.Reached E) :
    h.LooplessAt E 0 h.maxDepth where
  toLoopless := hh
  compiled f u hu := by
    obtain ⟨-, g, hg, hprepare, -⟩ := hreached.current f u hu
    have hloopless := hh.graphOf hg
    rw [hloopless.prepare_eq_ok] at hprepare
    exact Except.ok.inj hprepare ▸ hloopless
  counts := hreached.counts

end Host

end Interpose
