import Interpose.Proofs.Host.Loopless
import Interpose.Proofs.Run.Ending

/-!
# Calls that end

In a host without loops every call ends. Inside one activation a graph enters its blocks in their
order, and there are only so many. A graph makes further calls, and so do hooks: a hook that has no
graph to run calls the callee as it is. But every call is counted while what it leads to runs, and
at the limit calls are refused. So the calls are shown to end by induction on the room that there is
for further ones. It does not matter whether the functions ever stop calling each other.
-/

set_option autoImplicit false

namespace Interpose

open Run

variable {V : Vocabulary} {α : Type} {E : Embedding V} {d m : Nat}
  {again : Nat → (r : Request V) → Exec V r.Answer}

/-! ## What is done at once -/

section AtOnce

variable {P : Host V → Prop} {Q : α → Prop}

theorem ends_ask {f : Host V → Except Fault α} (hf : ∀ h, P h → ∀ a, f h = .ok a → Q a) :
    Ends P Q fun _ => Exec.ask f :=
  fun h hh => ⟨f h, h, .const rfl, hh, hf h hh⟩

theorem ends_change {f : Host V → Except Fault (Host V × α)}
    (hf : ∀ h, P h → ∀ h' a, f h = .ok (h', a) → P h' ∧ Q a) : Ends P Q fun _ => Exec.change f := by
  intro h hh
  rcases hchange : f h with e | ⟨h', a⟩
  · exact ⟨.error e, h, .const (by rw [Exec.change_apply, hchange]), hh, nofun⟩
  · obtain ⟨hh', ha⟩ := hf h hh h' a hchange
    exact ⟨.ok a, h', .const (by rw [Exec.change_apply, hchange]), hh',
      fun b hb => Except.ok.inj hb ▸ ha⟩

theorem ends_attempt {f : Host V → Host V × Except Fault α} (hf : ∀ h, P h → P (f h).1) :
    EndsIn P fun _ => Exec.attempt f :=
  fun h hh => ⟨(f h).2, (f h).1, .const rfl, hf h hh, fun _ _ => trivial⟩

end AtOnce

/-- A call ends if what it runs ends with one more call in progress. Where there is no room it is
refused. -/
theorem ends_entered {x : Nat → Exec V α} (hx : d < m → EndsIn (Host.LooplessAt E (d + 1) m) x) :
    EndsIn (Host.LooplessAt E d m) fun n => Exec.entered (x n) := by
  intro h hh
  by_cases hroom : d < m
  · have hroom' : h.depth < h.maxDepth := by rwa [hh.counts.depth, hh.counts.limit]
    have hin : Host.LooplessAt E (d + 1) m { h with depth := h.depth + 1 } :=
      hh.congr rfl rfl rfl ⟨congrArg (· + 1) hh.counts.depth, hh.counts.limit⟩
    obtain ⟨r, h', hends, hh', -⟩ := hx hroom _ hin
    refine ⟨r, { h' with depth := h'.depth - 1 },
      hends.map (fun p => (p.1, { p.2 with depth := p.2.depth - 1 })) fun n =>
        Exec.entered_apply (x n) hroom',
      hh'.congr rfl rfl rfl ⟨?_, hh'.counts.limit⟩, fun _ _ => trivial⟩
    show h'.depth - 1 = d
    rw [hh'.counts.depth]
    exact Nat.add_sub_cancel d 1
  · have hfull : h.maxDepth ≤ h.depth := by
      rw [hh.counts.depth, hh.counts.limit]
      exact Nat.not_lt.1 hroom
    exact ⟨_, h, ⟨fun n => .inr (Exec.entered_refused (x n) hfull), 0,
      fun n _ => Exec.entered_refused (x n) hfull⟩, hh,
      fun _ _ => trivial⟩

theorem ends_hook (k : HookId) :
    Ends (Host.LooplessAt E d m) (Hook.Loopless E) fun _ => Exec.ask (·.hook k) :=
  ends_ask fun _ hh _ hk => hh.hook hk

/-- A hook leaves every call to a transform that gives back what it gets, if it has a rule for the
call. -/
theorem ends_handler {hook : Hook V} (hhook : hook.Loopless E) (sig : Signature) :
    Ends (Host.LooplessAt E d m)
      (fun handler => ∃ t, handler = .transform t ∧ E.GivesBack t)
      fun _ => Run.ofExcept (hook.handler sig) :=
  .ofExcept fun _ => hhook.handler

/-- A graph without loops is compiled as it is. -/
theorem ends_compile {g : Graph} (hg : g.Loopless) :
    Ends (Host.LooplessAt E d m) (fun u => u.graph.Loopless) fun _ => Exec.change
      (·.compile g) := by
  refine ends_change fun h hh h' u hcompile => ⟨hh.compile hcompile, ?_⟩
  obtain ⟨-, hprepare, -⟩ := Host.compile_apply hcompile
  rw [hg.prepare_eq_ok] at hprepare
  exact Except.ok.inj hprepare ▸ hg

/-- The compiled graph of a function is without loops. -/
theorem ends_directUnit (f : FuncId) :
    Ends (Host.LooplessAt E d m) (fun u => u.graph.Loopless) fun _ => directUnit f := by
  unfold directUnit
  refine .get fun h hh => ?_
  rcases hget : h.compiled.get? f with _ | u
  · refine .get fun h hh => ?_
    have hgraph : Ends (Host.LooplessAt E d m) Graph.Loopless fun _ => Run.ofGraph (h.graphOf f) :=
      .ofGraph fun g => hh.graphOf
    exact hgraph.bind fun g hg => (ends_compile hg).bind fun u hu =>
      (Ends.modify fun h hh => hh.keep hu).bind fun _ _ => .pure hu
  · exact .pure (hh.compiled f u hget)

/-! ## What plain requests lead to -/

section Leading

variable (hagain : ∀ r : Request V, r.Plain → EndsIn (Host.LooplessAt E d m) fun n => again n r)

include hagain

/-- A program that gives back a graph ends. -/
theorem ends_exec {g : Graph} {p : Prog V (Option Graph)} (hp : p.GivesBack g) :
    Ends (Host.LooplessAt E d m)
      (fun found => ∀ g', found = some g' → ∃ k, g'.IsThrough k g) fun n => p.exec (again n) := by
  induction hp with
  | graph hthrough => exact .pure fun _ hg' => Option.some.inj hg' ▸ ⟨_, hthrough⟩
  | decline => exact .pure nofun
  | fail e => exact .throw e
  | read _ ih => exact .get fun h _ => ih h.memory
  | write _ ih =>
    refine (Ends.modify fun h hh => ?_).bind fun _ _ => ih
    exact hh.congr rfl rfl rfl ⟨hh.counts.depth, hh.counts.limit⟩
  | ask hr _ ih => exact (hagain _ hr).observe.bind fun answer _ => ih answer

/-- A unit without loops ends. -/
theorem ends_unit {u : Compiled} (hu : u.graph.Loopless) (args : List Value) :
    EndsIn (Host.LooplessAt E d m) fun n => u.call (again n) n args :=
  hu.forward.ends_invoke ⟨fun _ => rfl, fun f args => hagain (.call f args) trivial⟩ args

theorem ends_buildDecision (k : HookId) (sig : Signature) {t : V.Transform} (ht : E.GivesBack t) :
    Ends (Host.LooplessAt E d m) Decision.Loopless fun n => buildDecision (again n) E k sig t := by
  unfold buildDecision
  refine .get fun h hh => ?_
  rcases hp : h.provenance sig with e | p
  · exact .pure trivial
  have hlower : Ends (Host.LooplessAt E d m) (fun g => lower p = .ok g)
      fun _ => Run.ofGraph (lower p) :=
    .ofGraph fun _ hg => hg
  refine hlower.bind fun g hg => (ends_exec hagain (ht ⟨k, sig⟩ g)).bind fun found hfound => ?_
  rcases found with _ | g'
  · exact .pure trivial
  · obtain ⟨k', hthrough⟩ := hfound g' rfl
    have hg' : g'.Loopless := ⟨p, g, k', hh.provenance hp, hg, hthrough⟩
    exact (ends_compile hg').bind fun u hu => .pure hu

theorem ends_decide? (k : HookId) (sig : Signature) {t : V.Transform} (ht : E.GivesBack t) :
    Ends (Host.LooplessAt E d m) Decision.Loopless fun n => decide? (again n) E k sig t := by
  refine (ends_hook k).bind fun hook hloopless => ?_
  rcases hget : hook.decisions.get? sig with _ | dec
  · refine (ends_buildDecision hagain k sig ht).bind fun dec hdec => ?_
    exact (Ends.modify fun h hh => hh.modifyDecisions k fun t ht => ht.insert hdec).bind fun _ _ =>
      .pure hdec
  · exact .pure (hloopless.remembers sig dec hget)

/-- **A hook ends**, whether it runs a graph or calls the callee as it is. -/
theorem ends_callHook (k : HookId) (args : List Value) :
    EndsIn (Host.LooplessAt E d m) fun n => callHook (again n) E n k args := by
  refine (ends_hook k).bind fun hook hloopless => ?_
  rcases args with _ | ⟨callee, rest⟩
  · exact .throw _
  refine (ends_handler hloopless _).bind fun handler hchosen => ?_
  obtain ⟨t, rfl, ht⟩ := hchosen
  refine (ends_decide? hagain k _ ht).bind fun dec hdec => ?_
  cases dec with
  | unit u => exact ends_unit hagain hdec rest
  | direct => exact hagain (.call callee rest) trivial

theorem ends_hookGraph (k : HookId) (sig : Signature) :
    EndsIn (Host.LooplessAt E d m) fun n => hookGraph (again n) E k sig := by
  refine (ends_hook k).bind fun hook hloopless => ?_
  refine (ends_handler hloopless _).bind fun handler hchosen => ?_
  obtain ⟨t, rfl, ht⟩ := hchosen
  refine (ends_decide? hagain k sig ht).bind fun dec _ => ?_
  cases dec with
  | unit u => exact .pure trivial
  | direct => exact .pure trivial

/-- **A function ends.** -/
theorem ends_callFunction (f : FuncId) (args : List Value) :
    EndsIn (Host.LooplessAt E d m) fun n => callFunction (again n) E n f args := by
  have hfunction : Ends (Host.LooplessAt E d m) (fun fn : Function V => fn.body.Loopless)
      fun _ => Exec.ask (·.function f) := ends_ask fun _ hh _ hf => hh.body hf
  refine hfunction.bind fun fn hfn => ?_
  rcases hbody : fn.body with ⟨definition, file⟩ | p | native
  · dsimp only
    split
    · exact .throw _
    · exact (ends_directUnit f).bind fun u hu => ends_unit hagain hu args
  · exact .ofExcept fun _ _ => trivial
  · rw [hbody] at hfn
    exact hfn.elim

end Leading

/-! ## Calls -/

/-- A request ends if it ends when it is served, since it is served where there is fuel. -/
theorem ends_perform {r : Request V} {P : Host V → Prop}
    (hserve : EndsIn P fun n => serve (perform E n) E n r) :
    EndsIn P fun n => perform E n r := .of_tail (fun _ => rfl) hserve

/-- A plain request is a call, or it ends at once. -/
theorem ends_plain
    (hcall : ∀ f args, EndsIn (Host.LooplessAt E d m) fun n => perform E n (.call f args))
    {r : Request V} (hr : r.Plain) : EndsIn (Host.LooplessAt E d m) fun n => perform E n r := by
  cases r with
  | call f args => exact hcall f args
  | setGlobal name v =>
    refine ends_perform (ends_change fun h hh h' _ hset => ?_)
    cases hset
    exact ⟨hh.congr rfl rfl rfl ⟨hh.counts.depth, hh.counts.limit⟩, trivial⟩
  | refresh k sig =>
    exact ends_perform (ends_change fun h hh h' _ hrefresh => ⟨hh.refresh hrefresh, trivial⟩)
  | compile g =>
    exact ends_perform (ends_change fun h hh h' _ hcompile => ⟨hh.compile hcompile, trivial⟩)
  | resolve | funcId | funcName | hook | provenance
  | graphOf => exact ends_perform (ends_ask fun _ _ _ _ => trivial)
  | define | defineNative | installPrelude | registerHook
  | invoke | hookCall | hookGraph => exact hr.elim

/-- **Every call ends**, by induction on the room for further calls. -/
theorem ends_call (E : Embedding V) (d m : Nat) (f : Value) (args : List Value) :
    EndsIn (Host.LooplessAt E d m) fun n => perform E n (.call f args) := by
  induction hk : m - d using Nat.strongRecOn generalizing d f args with
  | ind k ih =>
    have hdeeper : ∀ d', d < d' → d < m → ∀ r : Request V, r.Plain →
        EndsIn (Host.LooplessAt E d' m) fun n => perform E n r := fun d' hd' hroom r hr =>
      ends_plain (fun f args => ih (m - d') (by omega) d' f args rfl) hr
    refine ends_perform (ends_entered fun hroom => ?_)
    cases f with
    | func f => exact ends_callFunction (hdeeper (d + 1) (by omega) hroom) f args
    | hook k =>
      exact ends_entered fun _ => ends_callHook (hdeeper (d + 1 + 1) (by omega) hroom) k args
    | _ => exact .throw _

/-! ## Whole programs -/

/-- The request defines only functions without loops, and registers only hooks that give back what
they get. -/
def Request.Loopless (E : Embedding V) : Request V → Prop
  | .define file src => ∀ fns : List (Function V), Host.sourceFunctions file src = .ok fns →
    ∀ fn ∈ fns, fn.body.Loopless
  | .defineNative _ _ => False
  | .registerHook plan => ∀ r ∈ plan.rules, r.handler.Loopless E
  | _ => True

/-- Such a request ends, unless it runs a graph from elsewhere. -/
theorem Request.Loopless.ends {r : Request V} (hr : r.Loopless E)
    (hinvoke : ∀ u args, r ≠ .invoke u args) :
    EndsIn (Host.LooplessAt E d m) fun n => perform E n r := by
  have hplain : ∀ r : Request V, r.Plain → EndsIn (Host.LooplessAt E d m) fun n => perform E n r :=
    fun r => ends_plain (ends_call E d m)
  cases r with
  | define file src => exact ends_perform (ends_attempt fun h hh => hh.define hr)
  | defineNative name n => exact hr.elim
  | installPrelude =>
    have hprelude := @Host.loopless_preludeFunctions V
    refine ends_perform ?_
    simp only [serve]
    -- which functions these are is of no account
    generalize Host.preludeFunctions = fns at hprelude
    exact ends_attempt fun h hh => hh.installAll hprelude
  | registerHook plan =>
    refine ends_perform (ends_change fun h hh h' _ hregister => ?_)
    cases hregister
    exact ⟨hh.registerHook hr, trivial⟩
  | invoke u args => exact absurd rfl (hinvoke u args)
  | hookCall k args => exact ends_perform (ends_callHook hplain k args)
  | hookGraph k sig => exact ends_perform (ends_hookGraph hplain k sig)
  | _ => exact hplain _ trivial

/-- Such a request leaves a host without loops, also if it runs a graph from elsewhere. -/
theorem Request.Loopless.keeps {r : Request V} (hr : r.Loopless E) {n : Nat} {h h' : Host V}
    {result : Except Fault r.Answer} (hh : h.LooplessAt E d m)
    (hrun : perform E n r h = some (result, h')) : h'.LooplessAt E d m := by
  by_cases hinvoke : ∃ u args, r = .invoke u args
  · obtain ⟨u, args, rfl⟩ := hinvoke
    cases n with
    | zero => cases hrun
    | succ n =>
      -- the graph may be any, but all that it does to the host it does by calls
      have hcall : ∀ f args, Tied (Host.Beside id (Host.LooplessAt E d m))
          (perform E n (.call f args)) (perform E n (.call f args)) := fun f args =>
        tied_of_same (fun _ _ => rfl) fun h hh _ _ hrun => (ends_call E d m f args).keeps hh hrun
      have htied : Tied (Host.Beside id (Host.LooplessAt E d m)) (u.call (perform E n) n args)
          (u.call (perform E n) n args) :=
        .invoke (fun h h' hbeside name => by rw [hbeside.memory]; rfl) hcall u.graph n args
      exact htied.keeps hh hrun
  · exact (hr.ends fun u args heq => hinvoke ⟨u, args, heq⟩).keeps hh hrun

theorem Host.Loopless.call_ends {h : Host V} (hh : h.Loopless E) (hreached : h.Reached E)
    (f : Value) (args : List Value) :
    ∃ result h', EndsFrom (fun n => perform E n (.call f args)) h result h' := by
  obtain ⟨result, h', hends, -⟩ := ends_call E 0 h.maxDepth f args h (hh.at_reached hreached)
  exact ⟨result, h', hends⟩

/-- **Programs without loops end.** Let a host have come about by any requests, and let its
functions be source functions without loops and primitive operators. Let its hooks leave all calls
to transforms that give back the graph that they get, with its calls routed through a hook or not,
or that decline, and let what they remember come from functions without loops. Then every call ends,
whatever is called with whatever arguments, and however the functions call themselves and each
other: with all fuel that is enough, it ends with one and the same value or fault. And the host
stays like this as long as only such functions and hooks are added to it. New hosts are like this
(`Host.loopless_create`), and so are all hosts to which nothing else was ever added
(`Host.ReachedLoopless.loopless`). -/
theorem loopless_calls_end {h : Host V} (hreached : h.Reached E) (hh : h.Loopless E) :
    (∀ f args, ∃ result h', EndsFrom (fun n => perform E n (.call f args)) h result h')
    ∧ ∀ r : Request V, r.Loopless E → ∀ n result h',
      perform E n r h = some (result, h') → h'.Loopless E := by
  exact ⟨hh.call_ends hreached, fun r hr n result h' hrun =>
    (hr.keeps (hh.at_reached hreached) hrun).toLoopless⟩

/-- The hosts to which only functions without loops, and hooks that give back what they get, were
ever added. -/
inductive Host.ReachedLoopless (E : Embedding V) : Host V → Prop
  | bare (backend : Backend) (maxDepth : Nat) (memory : V.Memory) :
    ReachedLoopless E (.bare backend maxDepth memory)
  | create (backend : Backend) (maxDepth : Nat) (memory : V.Memory) :
    ReachedLoopless E (.create backend maxDepth memory)
  | requested {h h' : Host V} {n : Nat} {r : Request V} {result : Except Fault r.Answer} :
    ReachedLoopless E h → r.Loopless E → perform E n r h = some (result, h') → ReachedLoopless E h'
  | remembered {h : Host V} (memory : V.Memory) :
    ReachedLoopless E h → ReachedLoopless E { h with memory }

namespace Host.ReachedLoopless

variable {h : Host V}

protected theorem reached (hh : h.ReachedLoopless E) : h.Reached E := by
  induction hh with
  | bare backend maxDepth memory => exact .bare backend maxDepth memory
  | create backend maxDepth memory => exact .create backend maxDepth memory
  | requested _ _ hrun ih => exact ih.requested hrun
  | remembered memory _ ih => exact ih.remembered memory

/-- What was added makes the host what it is, with all that its hooks remember. -/
protected theorem loopless (hh : h.ReachedLoopless E) : h.Loopless E := by
  induction hh with
  | bare backend maxDepth memory => exact loopless_bare backend maxDepth memory
  | create backend maxDepth memory => exact loopless_create backend maxDepth memory
  | requested hbefore hr hrun ih => exact (hr.keeps (ih.at_reached hbefore.reached) hrun).toLoopless
  | remembered _ _ ih => exact ⟨ih.functions, ih.hooks⟩

/-- **Where only such functions and hooks were ever added, every call ends.** -/
theorem calls_end (hh : h.ReachedLoopless E) (f : Value) (args : List Value) :
    ∃ result h', EndsFrom (fun n => perform E n (.call f args)) h result h' :=
  hh.loopless.call_ends hh.reached f args

end Host.ReachedLoopless

/-- There are no natives, and every transform routes all calls through its hook. -/
def rerouting : Embedding ⟨Empty, Unit, Unit⟩ where
  native n _ := nomatch n
  transform _ o g := return some (g.routeCalls (.const (.hook o.hook))).1

/-- A host with a function that calls itself whatever happens, and with a hook for the transform. It
allows six calls. -/
def endless : Host ⟨Empty, Unit, Unit⟩ where
  functions := #[⟨"f", .source ⟨"f", ["x"], [.expr 1 (.call (.name "f") [.name "x"])], 1⟩ "a"⟩]
  hooks := #[⟨⟨"k", [⟨.any, .transform ()⟩]⟩, .empty⟩]
  globals := ⟨[("f", .func ⟨0⟩), ("k", .hook ⟨0⟩)]⟩
  compiled := .empty
  backend := ⟨true, true, false⟩
  maxDepth := 6
  depth := 0
  serial := 0
  memory := ()

theorem reached_endless : endless.Reached rerouting := by
  have hsource := (Host.Reached.bare ⟨true, true, false⟩ 6 ()).requested
    (show perform rerouting 1 (.define "a" "fn f(x) { f(x) }") _ = some (.ok [⟨0⟩], _) by cbv)
  exact hsource.requested
    (show perform rerouting 1 (.registerHook ⟨"k", [⟨.any, .transform ()⟩]⟩) _
      = some (.ok ⟨0⟩, endless) by cbv)

theorem loopless_endless : endless.Loopless rerouting where
  functions fn hfn := by
    obtain rfl : fn = _ := by simpa [endless] using hfn
    rfl
  hooks hook hhook := by
    obtain rfl : hook = _ := by simpa [endless] using hhook
    refine ⟨fun r hr => ?_, .empty⟩
    obtain rfl := List.mem_singleton.1 hr
    exact fun o g => .graph (.inr rfl)

/-- The call of the function through the hook goes as deep as it may, and ends there. -/
theorem loopless_calls_end_endless : endless.Reached rerouting ∧ endless.Loopless rerouting
    ∧ ∃ h', EndsFrom (fun n => perform rerouting n (.call (.hook ⟨0⟩) [.func ⟨0⟩, .int 1])) endless
      (.error (.trap (.callDepthExceeded 6))) h' := by
  refine ⟨reached_endless, loopless_endless, ?_⟩
  obtain ⟨result, h', hends⟩ :=
    (loopless_calls_end reached_endless loopless_endless).1 (.hook ⟨0⟩) [.func ⟨0⟩, .int 1]
  have hrun : (perform rerouting 8 (.call (.hook ⟨0⟩) [.func ⟨0⟩, .int 1]) endless).map Prod.fst
      = some (.error (.trap (.callDepthExceeded 6))) := by cbv
  obtain ⟨p, hp, hfault⟩ := Option.map_eq_some_iff.1 hrun
  obtain rfl : result = .error (.trap (.callDepthExceeded 6)) := by
    rw [← hfault, hends.eq_of_some hp]
  exact ⟨h', hends⟩

end Interpose
