import Interpose.Proofs.Host.Alike

/-!
# Requests in alike hosts

A request that is made in two alike hosts ends alike in both, up to calls that are refused in the
first one. What is asked for on the way may be answered by any two functions that do the same: they
are *serving* if they answer modest requests alike, and if a call that goes through the hook in the
first host is answered there as the call itself is in the second.

Each section follows one function of the host.
-/

set_option autoImplicit false

namespace Interpose

open Run

variable {V : Vocabulary} {α β : Type}

theorem Prog.exec_read (again : (r : Request V) → Exec V r.Answer) (next : V.Memory → Prog V α) :
    (Prog.read next).exec again = get >>= fun h : Host V => (next h.memory).exec again := rfl

theorem Prog.exec_ask (again : (r : Request V) → Exec V r.Answer) {r : Request V}
    (next : Except Fault r.Answer → Prog V α) :
    (Prog.ask r next).exec again = observe (again r) >>= fun answer => (next answer).exec again :=
  rfl

theorem Compiled.Like.related {u u' : Compiled} (hu : u.Like u') (k : HookId) :
    u.graph.Related (Operation.Through k) u'.graph :=
  hu.graph ▸ Graph.IsThrough.related (.inl rfl)

/-- What becomes of a call by a decision. -/
def Decision.follow (again : (r : Request V) → Exec V r.Answer) (fuel : Nat) (f : Value)
    (args : List Value) :
    Decision → Exec V Value
  | .unit u => u.call again fuel args
  | .direct => again (.call f args)

theorem Hook.handler_congr {hook hook' : Hook V} (h : hook.toHookPlan = hook'.toHookPlan)
    (sig : Signature) :
    hook.handler sig = hook'.handler sig := by
  unfold Hook.handler
  rw [h]

theorem Hook.handler_any {hook : Hook V} {t : V.Transform} (h : hook.rules = [⟨.any, .transform t⟩])
    (sig : Signature) : hook.handler sig = .ok (.transform t) := by
  have haccepts : SigPattern.any.accepts sig = true := by
    simp [SigPattern.accepts, SigPattern.acceptsSize, SigPattern.any, SigPattern.at?,
      Pattern.accepts]
  have hfilter : ([⟨.any, .transform t⟩] : List (Rule (Handler V))).filter (·.pattern.accepts sig)
      = [⟨.any, .transform t⟩] := List.filter_cons_of_pos haccepts
  have hselect : select hook.rules sig = some ⟨.any, .transform t⟩ := by
    rw [h, select, hfilter]
    rfl
  rw [Hook.handler, hselect]

/-! ## One host -/

namespace Host

variable {h : Host V} {k : HookId} {t : V.Transform} {image : Signature → Graph → Graph}

theorem isSource_of_function {f : FuncId} {fn : Function V} (hfn : h.function f = .ok fn)
    {d : Source.Function} {file : String} (hbody : fn.body = .source d file) : h.IsSource f := by
  unfold Host.function at hfn
  rcases hget : h.function? f with _ | fn'
  · rw [hget] at hfn
    cases hfn
  · rw [hget] at hfn
    obtain rfl := Except.ok.inj hfn
    exact isSource_iff.2 ⟨fn', d, file, hget, hbody⟩

theorem Settled.grown (hs : h.Settled k t image) : h.Grown h k t image :=
  ⟨rfl, rfl, rfl, rfl, rfl, rfl, rfl, fun _ _ => rfl, rfl, hs⟩

/-- A function that is called directly gets its graph, and what is kept for it is right. -/
theorem Settled.directUnit (hs : h.Settled k t image) {f : FuncId} (hf : h.IsSource f) :
    ∃ u h', directUnit f h = some (.ok u, h') ∧ h.Grown h' k t image
      ∧ h.graphOf f = .ok u.graph := by
  obtain ⟨p, hgraph⟩ := hf.graphOf
  obtain ⟨g, hlower, hprepare⟩ := exists_lower p
  rw [hlower] at hgraph
  -- the graph is compiled at the first call and kept for the later ones
  rcases hkept : h.compiled.get? f with _ | u
  · let u : Compiled := ⟨h.serial, g, h.backend.hides⟩
    refine ⟨u, { h with serial := h.serial + 1, compiled := h.compiled.insert f u },
      directUnit_compiled hkept hgraph (hprepare h.backend),
      ⟨rfl, rfl, rfl, rfl, rfl, rfl, rfl, fun _ _ => rfl, rfl, fun f' u' hu' => ?_, hs.remembers⟩,
      hgraph⟩
    have hget : (h.compiled.insert f u).get? f' = some u' := hu'
    rw [Table.get?_insert] at hget
    split at hget
    · next hff =>
      subst hff
      obtain rfl := Option.some.inj hget
      exact ⟨g, hgraph, hprepare h.backend⟩
    · exact hs.kept f' u' hget
  · obtain ⟨g', hg', hprepare'⟩ := hs.kept f u hkept
    obtain rfl := Except.ok.inj (hg'.symm.trans hgraph)
    obtain hsame := Except.ok.inj ((hprepare h.backend).symm.trans hprepare')
    exact ⟨u, h, directUnit_kept hkept, hs.grown, hsame ▸ hgraph⟩

/-- A call with as many arguments as the function takes runs its compiled graph. -/
theorem callFunction_apply {E : Embedding V} {again : (r : Request V) → Exec V r.Answer}
    (fuel : Nat) {f : FuncId} {fn : Function V} (hfn : h.function f = .ok fn) {d : Source.Function}
    {file : String} (hbody : fn.body = .source d file) {args : List Value}
    (hargs : d.params.length = args.length) {u : Compiled} {h' : Host V}
    (hunit : Interpose.directUnit f h = some (.ok u, h')) :
    callFunction again E fuel f args h = u.call again fuel args h' := by
  unfold callFunction
  rw [bind_apply, Exec.ask_apply, hfn]
  dsimp only
  rw [hbody]
  dsimp only
  rw [if_neg (not_not.2 hargs), bind_apply, hunit]

section Decide

variable {E : Embedding V} (again : (r : Request V) → Exec V r.Answer)
  (hE : ∀ sig g, E.transform t ⟨k, sig⟩ g = .done (some (image sig g)))
  (himage : ∀ sig g, (image sig g).IsThrough k g)

include hE himage

theorem buildDecision_apply (h : Host V) (sig : Signature) : ∃ d n,
    buildDecision again E k sig t h = some (.ok d, { h with serial := n })
      ∧ h.Decides image sig d := by
  unfold buildDecision Decides
  rw [bind_apply, get_apply]
  dsimp only
  rcases hp : h.provenance sig with e | p
  · exact ⟨.direct, h.serial, rfl, rfl⟩
  · obtain ⟨g, hlower, -⟩ := exists_lower p
    refine ⟨.unit ⟨h.serial, image sig g, h.backend.hides⟩, h.serial + 1, ?_, g, _, hlower,
      rfl, rfl, rfl⟩
    dsimp only
    rw [hlower]
    show ((E.transform t ⟨k, sig⟩ g).exec again >>= _) h = _
    rw [hE]
    show (Exec.change (·.compile (image sig g)) >>= _) h = _
    rw [bind_apply, Exec.change_apply,
      compile_eq_ok (prepare_isThrough hlower (himage sig g) h.backend)]
    rfl

/-- What the hook remembers for a signature, or decides now, is what its transform makes of the
function. -/
theorem Settled.decide (hs : h.Settled k t image) (sig : Signature) : ∃ d h',
    decide? again E k sig t h = some (.ok d, h') ∧ h.Grown h' k t image
      ∧ h.Decides image sig d := by
  obtain ⟨hook, hget, hrules, hdecisions⟩ := hs.remembers
  have hhook : h.hook k = .ok hook := by rw [Host.hook, hget]
  unfold decide?
  rw [bind_apply, Exec.ask_apply, hhook]
  dsimp only
  -- a decision of before is right by the invariant, and a new one by what the transform means
  rcases hremembered : hook.decisions.get? sig with _ | d
  · obtain ⟨d, n, hbuild, hd⟩ := buildDecision_apply again hE himage h sig
    have hchanged : ({ h with serial := n }.remember k sig d).hook? k
        = some { hook with decisions := hook.decisions.insert sig d } := by
      rw [remember, hook?_modifyDecisions, if_pos rfl]
      exact congrArg (Option.map _) hget
    refine ⟨d, { h with serial := n }.remember k sig d, ?_,
      ⟨rfl, rfl, rfl, rfl, rfl, rfl, ?_, fun k' hk' => ?_,
      ?_, hs.kept, ?_⟩, hd⟩
    · dsimp only
      rw [bind_apply, hbuild]
      rfl
    · exact Array.size_modify ..
    · rw [remember, hook?_modifyDecisions, if_neg hk'.symm]
      rfl
    · rw [hchanged, hget]
      rfl
    · refine ⟨_, hchanged, hrules, fun sig' d' hd' => ?_⟩
      rw [Table.get?_insert] at hd'
      split at hd'
      · next hsig =>
        subst hsig
        exact Option.some.inj hd' ▸ hd
      · exact hdecisions sig' d' hd'
  · exact ⟨d, h, rfl, hs.grown, hdecisions sig d hremembered⟩

/-- A call through the hook becomes what the hook decides to make of it. -/
theorem Settled.callHook (hs : h.Settled k t image) (fuel : Nat) (f : Value) (args : List Value) :
    ∃ d h',
    callHook again E fuel k (f :: args) h = d.follow again fuel f args h' ∧ h.Grown h' k t image
      ∧ h.Decides image (.ofValues (f :: args)) d := by
  obtain ⟨hook, hget, hrules, -⟩ := hs.remembers
  have hhook : h.hook k = .ok hook := by rw [Host.hook, hget]
  obtain ⟨d, h', hdecide, hgrown, hd⟩ := hs.decide again hE himage (.ofValues (f :: args))
  refine ⟨d, h', ?_, hgrown, hd⟩
  unfold Interpose.callHook
  rw [bind_apply, Exec.ask_apply, hhook]
  dsimp only
  rw [Hook.handler_any hrules, bind_apply, ofExcept_apply]
  dsimp only
  rw [bind_apply, hdecide]
  cases d <;> rfl

end Decide

end Host

/-! ## Two hosts -/

namespace Interception

variable {c : Interception V} {lag : Lag} {a b : Nat} {Q : α → β → Prop}

/-- The runs end alike from alike hosts, unless a call is refused in the first one. -/
abbrev Along (c : Interception V) (lag : Lag) (a b : Nat) {α β : Type} (Q : α → β → Prop) :
    Exec V.recorded α → Exec V.recorded β → Prop :=
  Run.Along lag (Host.Alike c a b) Host.Refused Q

/-! ### Single steps -/

theorem along_ask {f : Host V.recorded → Except Fault α} {f' : Host V.recorded → Except Fault β}
    (h : ∀ s s', s.Alike c a b s' → Fits Q (f s) (f' s')) :
    c.Along lag a b Q (Exec.ask f) (Exec.ask f') :=
  fun s s' hs => .inr (.inr ⟨_, _, s, s', rfl, rfl, hs, h s s' hs⟩)

theorem along_change {f : Host V.recorded → Except Fault (Host V.recorded × α)}
    {f' : Host V.recorded → Except Fault (Host V.recorded × β)}
    (h : ∀ s s', s.Alike c a b s' →
      Fits (fun p p' => p.1.Alike c a b p'.1 ∧ Q p.2 p'.2) (f s) (f' s')) :
    c.Along lag a b Q (Exec.change f) (Exec.change f') := by
  intro s s' hs
  rw [Exec.change_apply, Exec.change_apply]
  have hfits := h s s' hs
  revert hfits
  generalize f s = r
  generalize f' s' = r'
  intro hfits
  cases hfits with
  | error e => exact .inr (.inr ⟨_, _, s, s', rfl, rfl, hs, .error e⟩)
  | ok hok => exact .inr (.inr ⟨_, _, _, _, rfl, rfl, hok.1, .ok hok.2⟩)

theorem along_modify {f f' : Host V.recorded → Host V.recorded}
    (h : ∀ s s', s.Alike c a b s' → (f s).Alike c a b (f' s')) :
    c.Along lag a b Eq (modify f) (modify f') :=
  fun s s' hs => .inr (.inr ⟨_, _, f s, f' s', rfl, rfl, h s s' hs, .ok rfl⟩)

/-- Runs that depend on the host where they begin. -/
theorem along_get {x : Host V.recorded → Exec V.recorded α}
    {y : Host V.recorded → Exec V.recorded β}
    (h : ∀ s s', s.Alike c a b s' → c.Along lag a b Q (x s) (y s')) :
    c.Along lag a b Q (get >>= x) (get >>= y) := by
  intro s s' hs
  rw [bind_apply, bind_apply, get_apply, get_apply]
  exact h s s' hs s s' hs

/-! ### Calls in progress -/

theorem along_entered_left {x : Exec V.recorded α} {y : Exec V.recorded β} (ha : a < c.limit)
    (h : c.Along lag (a + 1) b Q x y) : c.Along lag a b Q (Exec.entered x) y := by
  intro s s' hs
  have hroom : s.depth < s.maxDepth := by rw [hs.depth, hs.maxDepth]; exact ha
  rw [Exec.entered_apply x hroom]
  rcases h _ s' hs.enterLeft with hlag | ⟨e, s₁, hx, hstop⟩ | ⟨r, r', s₁, s₁', hx, hy, hs₁, hr⟩
  · refine .inl ?_
    cases lag with
    | first =>
      have hx : x { s with depth := s.depth + 1 } = none := hlag
      rw [hx]
      rfl
    | second => exact hlag
  · rw [hx]
    exact .inr (.inl ⟨e, _, rfl, hstop⟩)
  · rw [hx]
    refine .inr (.inr ⟨r, r', _, s₁', rfl, hy, ?_, hr⟩)
    exact { hs₁ with
      depth := congrArg (· - 1) hs₁.depth, settled := hs₁.settled.congr rfl rfl rfl rfl }

/-- What meets the second run inside of a call meets the whole call. -/
theorem meet_entered {x : Option (Except Fault α × Host V.recorded)} {y : Exec V.recorded β}
    {s' : Host V.recorded} (hroom : s'.depth < s'.maxDepth)
    (h : Meet lag (Host.Alike c a (b + 1)) Host.Refused Q x (y { s' with depth := s'.depth + 1 })) :
    Meet lag (Host.Alike c a b) Host.Refused Q x (Exec.entered y s') := by
  rw [Exec.entered_apply y hroom]
  rcases h with hlag | hstop | ⟨r, r', s₁, s₁', hx, hy, hs₁, hr⟩
  · refine .inl ?_
    cases lag with
    | first => exact hlag
    | second =>
      have hy : y { s' with depth := s'.depth + 1 } = none := hlag
      rw [hy]
      rfl
  · exact .inr (.inl hstop)
  · rw [hy]
    refine .inr (.inr ⟨r, r', s₁, _, hx, rfl, ?_, hr⟩)
    exact { hs₁ with
      depth' := congrArg (· - 1) hs₁.depth', settled' := hs₁.settled'.congr rfl rfl rfl rfl }

theorem along_entered {x : Exec V.recorded α} {y : Exec V.recorded β} (ha : a < c.limit)
    (hb : b < c.limit) (h : c.Along lag (a + 1) (b + 1) Q x y) :
    c.Along lag a b Q (Exec.entered x) (Exec.entered y) := by
  refine along_entered_left ha fun s s' hs => meet_entered ?_ (h s _ hs.enterRight)
  rw [hs.depth', hs.maxDepth']
  exact hb

/-! ### Programs -/

variable {again again' : (r : Request V.recorded) → Exec V.recorded r.Answer}
  {E : Embedding V.recorded}

/-- The functions answer the same requests alike, and a call through the hook as the call itself. -/
structure Serving (c : Interception V) (lag : Lag)
    (again again' : (r : Request V.recorded) → Exec V.recorded r.Answer) : Prop where
  same : ∀ a b, b ≤ a → ∀ r : Request V.recorded, r.Modest c.hook →
    c.Along lag a b r.Like (again r) (again' r)
  invoke : ∀ a b, b ≤ a → ∀ (u u' : Compiled) (args : List Value), u.Like u' →
    c.Along lag a b (α := Value) Eq (again (.invoke u args)) (again' (.invoke u' args))
  through : ∀ a b, b ≤ a → ∀ (f : Value) (args : List Value),
    c.Along lag a b (α := Value) Eq (again (.call (.hook c.hook) (f :: args)))
      (again' (.call f args))

/-- After a request, a strict program goes on like the program, or stops. -/
theorem along_request {r r' : Request V.recorded} {L : r.Answer → r'.Answer → Prop}
    (hr : c.Along lag a b L (again r) (again' r'))
    {next : Except Fault r.Answer → Prog V.recorded α}
    {next' : Except Fault r'.Answer → Prog V.recorded α}
    (hnext : ∀ x x', Fits L x x' →
      c.Along lag a b Eq ((next x).strict.exec again) ((next' x').exec again')) :
    c.Along lag a b Eq ((Prog.ask r next).strict.exec again) ((Prog.ask r' next').exec again') := by
  intro s s' hs
  rw [Prog.strict, Prog.exec_ask, Prog.exec_ask, bind_apply, bind_apply, Exec.observe_apply,
    Exec.observe_apply]
  -- the request ends the runs, or it was refused and the strict program stops, or both go on
  rcases hr s s' hs with hlag | ⟨e, s₁, hx, hstop⟩ | ⟨x, x', s₁, s₁', hx, hy, hs₁, hfits⟩
  · refine .inl ?_
    cases lag with
    | first =>
      have hx : again r s = none := hlag
      rw [hx]
      rfl
    | second =>
      have hy : again' r' s' = none := hlag
      rw [hy]
      rfl
  · have hrefused : s₁.memory.2.refused = true := hstop
    refine .inr (.inl ⟨.trap (.callDepthExceeded 0), s₁, ?_, hstop⟩)
    rw [hx, Option.map_some]
    dsimp only
    rw [Prog.exec_read, bind_apply, get_apply]
    dsimp only
    rw [if_pos hrefused]
    rfl
  · rw [hx, hy, Option.map_some, Option.map_some]
    dsimp only
    rw [Prog.exec_read, bind_apply, get_apply]
    dsimp only
    rw [if_neg (by rw [hs₁.unrefused]; exact Bool.false_ne_true)]
    exact hnext x x' hfits s₁ s₁' hs₁

/-- A strict program runs in the first host like the program that is alike runs in the second. -/
theorem Serving.exec (hserving : c.Serving lag again again') (hab : b ≤ a)
    {p p' : Prog V.recorded α} (hp : p.Alike c.same c.hook p') :
    c.Along lag a b Eq (p.strict.exec again) (p'.exec again') := by
  induction hp with
  | done x => exact .pure rfl
  | fail e => exact .throw e
  | read _ ih =>
    refine along_get fun s s' hs => ?_
    have hmemory : s'.memory = (s'.memory.1, s.memory.2) := Prod.ext rfl hs.record.symm
    rw [hmemory]
    exact ih _ _ _ hs.memory hs.unrefused
  | write hsame hrefused _ ih =>
    refine (along_modify fun s s' hs => ?_).next fun _ => ih
    exact { hs with
      memory := hsame
      record := rfl
      unrefused := hrefused
      settled := hs.settled.congr rfl rfl rfl rfl
      settled' := hs.settled'.congr rfl rfl rfl rfl }
  | ask hr hnext ih => exact along_request (hserving.same a b hab _ hr) ih
  | invoke hu _ ih =>
    exact along_request (hserving.invoke a b hab _ _ _ hu) fun x x' hfits => hfits.eq ▸ ih x

/-! ### Compiled graphs -/

/-- A compiled graph runs like the one that makes the same calls, through the hook or not. -/
theorem Serving.unit (hserving : c.Serving lag again again') (hab : b ≤ a) {u u' : Compiled}
    (hu : u.graph.Related (Operation.Through c.hook) u'.graph) {m n : Nat} (hfuel : lag.Behind m n)
    (args : List Value) : c.Along lag a b Eq (u.call again m args) (u'.call again' n args) := by
  have hglobal : ∀ s s', Host.Alike c a b s s' → ∀ name, (hostSurroundings again).global s name
      = (hostSurroundings again').global s' name :=
        fun s s' hs name => congrArg (·.get? name) hs.globals
  have henv : (hostSurroundings again).Along lag (Host.Alike c a b) Host.Refused
      (hostSurroundings again') :=
    ⟨hglobal, fun f args => hserving.same a b hab (.call f args) trivial⟩
  exact along_invoke hglobal
    (fun frame e e' he => along_through henv (hserving.through a b hab) frame he) hu hfuel args

theorem along_compile (g : Graph) :
    c.Along lag a b Compiled.Like (Exec.change (·.compile g)) (Exec.change (·.compile g)) := by
  refine along_change fun s s' hs => ?_
  have hprepare : s.backend.prepare g = s'.backend.prepare g := by rw [hs.backend]
  unfold Host.compile
  rw [hprepare]
  rcases s'.backend.prepare g with e | g'
  · exact .error e
  · refine .ok ⟨?_, ⟨rfl, congrArg Backend.hides hs.backend⟩⟩
    exact { hs with
      settled := hs.settled.congr rfl rfl rfl rfl
      settled' := hs.settled'.congr rfl rfl rfl rfl }

/-! ### Decisions -/

/-- The hook of the number is there in both hosts or in neither. -/
theorem along_hook (k : HookId) :
    c.Along lag a b (fun hook hook' => hook.toHookPlan = hook'.toHookPlan
      ∧ (k ≠ c.hook → hook.Like hook')
      ∧ (k = c.hook → hook'.rules = [⟨.any, .transform c.transform⟩]))
    (Exec.ask (·.hook k)) (Exec.ask (·.hook k)) := by
  refine along_ask fun s s' hs => ?_
  unfold Host.hook
  rcases hs.hook? k with ⟨hget, hget'⟩ | ⟨hook, hook', hget, hget', hplan, hlike⟩
  · rw [hget, hget']
    exact .error _
  · rw [hget, hget']
    refine .ok ⟨hplan, hlike, ?_⟩
    rintro rfl
    obtain ⟨hook'', hget'', hrules, -⟩ := hs.settled'.remembers
    rw [hget'] at hget''
    exact Option.some.inj hget'' ▸ hrules

theorem Serving.buildDecision (hserving : c.Serving lag again again') (hab : b ≤ a)
    (hE : E.Modest c.same c.hook) (k : HookId) (sig : Signature) (t : V.Transform) :
    c.Along lag a b Decision.Like (buildDecision again E.strict k sig t)
      (buildDecision again' E k sig t) := by
  refine along_get fun s s' hs => ?_
  rw [Host.provenance_congr hs.functions]
  rcases s'.provenance sig with e | p
  · exact .pure .direct
  · apply (Run.Along.same _).next
    intro g
    apply (hserving.exec hab (hE.transform t ⟨k, sig⟩ g)).next
    rintro (_ | g')
    · exact .pure .direct
    · apply (along_compile g').bind
      intro u u' hu
      exact .pure (.unit hu)

theorem along_remember {k : HookId} (hk : k ≠ c.hook) (sig : Signature) {d d' : Decision}
    (hd : d.Like d') :
    c.Along lag a b Eq (modify (·.remember k sig d)) (modify (·.remember k sig d')) :=
  along_modify fun _ _ hs => hs.modifyDecisions hk fun _ _ h => h.insert sig hd

/-- The transform does nothing but to change a graph, into the graph with calls routed or the graph
itself. -/
structure Means (c : Interception V) (E : Embedding V.recorded) : Prop where
  modest : E.Modest c.same c.hook
  transform : ∀ sig g, E.transform c.transform ⟨c.hook, sig⟩ g = .done (some (c.image sig g))
  image : ∀ sig g, (c.image sig g).IsThrough c.hook g

theorem Means.transform_strict (hE : c.Means E) (sig : Signature) (g : Graph) :
    E.strict.transform c.transform ⟨c.hook, sig⟩ g = .done (some (c.image sig g)) :=
  congrArg Prog.strict (hE.transform sig g)

/-- Every hook decides alike in both hosts, whatever the one hook remembers in each. -/
theorem Serving.decide (hserving : c.Serving lag again again') (hab : b ≤ a) (hE : c.Means E)
    {k : HookId} {t : V.Transform} (ht : k = c.hook → t = c.transform) (sig : Signature) :
    c.Along lag a b Decision.Like (decide? again E.strict k sig t) (decide? again' E k sig t) := by
  -- the one hook may remember different signatures in the two hosts, and all others remember alike
  by_cases hk : k = c.hook
  · obtain rfl := ht hk
    subst hk
    intro s s' hs
    obtain ⟨d, s₁, hrun, hgrown, hd⟩ :=
      hs.settled.decide again hE.transform_strict hE.image sig
    obtain ⟨d', s₁', hrun', hgrown', hd'⟩ :=
      hs.settled'.decide again' hE.transform hE.image sig
    refine .inr (.inr ⟨_, _, s₁, s₁', hrun, hrun', (hs.left hgrown).right hgrown',
      .ok (hd.like ?_)⟩)
    exact hd'.congr hs.functions.symm hs.backend.symm
  · unfold decide?
    apply (along_hook k).bind
    rintro hook hook' ⟨-, hlike, -⟩
    rcases (hlike hk).decisions.get? sig with ⟨hd, hd'⟩ | ⟨d, d', hd, hd', hdlike⟩
    · rw [hd, hd']
      apply (hserving.buildDecision hab hE.modest k sig t).bind
      intro d d' hdlike
      apply (along_remember hk sig hdlike).next
      intro _
      exact .pure hdlike
    · rw [hd, hd']
      exact .pure hdlike

/-! ### Hooks -/

theorem Serving.callHook (hserving : c.Serving lag again again') (hab : b ≤ a) (hE : c.Means E)
    {m n : Nat} (hfuel : lag.Behind m n) (k : HookId) (args : List Value) :
    c.Along lag a b Eq (callHook again E.strict m k args) (callHook again' E n k args) := by
  apply (along_hook k).bind
  rintro hook hook' ⟨hplan, -, hrules⟩
  rcases args with _ | ⟨callee, rest⟩
  · exact .throw _
  · dsimp only
    rw [Hook.handler_congr hplan]
    rcases hhandler : hook'.handler (.ofValues (callee :: rest)) with e | handler
    · exact .throw e
    · show c.Along lag a b Eq (pure handler >>= _) (pure handler >>= _)
      rw [pure_bind, pure_bind]
      cases handler with
      | native n => exact hserving.exec hab (hE.modest.native n _)
      | transform t =>
        have ht : k = c.hook → t = c.transform := fun hk => by
          rw [Hook.handler_any (hrules hk)] at hhandler
          cases hhandler
          rfl
        apply (hserving.decide hab hE ht _).bind
        intro d d' hd
        cases hd with
        | unit hu => exact hserving.unit hab (hu.related c.hook) hfuel rest
        | direct => exact hserving.same a b hab (.call callee rest) trivial

/-- The graph that a hook gives out is the same in both hosts. -/
theorem Serving.hookGraph (hserving : c.Serving lag again again') (hab : b ≤ a) (hE : c.Means E)
    (k : HookId) (sig : Signature) :
    c.Along lag a b Eq (hookGraph again E.strict k sig) (hookGraph again' E k sig) := by
  apply (along_hook k).bind
  rintro hook hook' ⟨hplan, -, hrules⟩
  rw [Hook.handler_congr hplan]
  rcases hhandler : hook'.handler sig with e | handler
  · exact .throw e
  · show c.Along lag a b Eq (pure handler >>= _) (pure handler >>= _)
    rw [pure_bind, pure_bind]
    cases handler with
    | native n => exact .pure rfl
    | transform t =>
      have ht : k = c.hook → t = c.transform := fun hk => by
        rw [Hook.handler_any (hrules hk)] at hhandler
        cases hhandler
        rfl
      apply (hserving.decide hab hE ht _).bind
      intro d d' hd
      cases hd with
      | unit hu => exact .pure hu.graph?
      | direct => exact .pure rfl

/-! ### Functions -/

theorem Serving.callFunction (hserving : c.Serving lag again again') (hab : b ≤ a) (hE : c.Means E)
    {m n : Nat} (hfuel : lag.Behind m n) (f : FuncId) (args : List Value) :
    c.Along lag a b Eq (callFunction again E.strict m f args) (callFunction again' E n f args) := by
  intro s s' hs
  have hfunction : s'.function f = s.function f := by
    rw [Host.function, Host.function, Host.function?_congr hs.functions]
  rcases hfn : s.function f with e | fn
  · unfold Interpose.callFunction
    rw [bind_apply, bind_apply, Exec.ask_apply, Exec.ask_apply, hfunction, hfn]
    exact .inr (.inr ⟨_, _, s, s', rfl, rfl, hs, .error e⟩)
  · -- a function of source runs as a unit, which each host may have compiled before or compiles now
    by_cases hcall : ∃ d file, fn.body = .source d file ∧ d.params.length = args.length
    · obtain ⟨d, file, hbody, hargs⟩ := hcall
      have hfn' := hfunction.trans hfn
      obtain ⟨u, s₁, hrun, hgrown, hgraph⟩ :=
        hs.settled.directUnit (Host.isSource_of_function hfn hbody)
      obtain ⟨u', s₁', hrun', hgrown', hgraph'⟩ :=
        hs.settled'.directUnit (Host.isSource_of_function hfn' hbody)
      have hsame : u.graph = u'.graph := by
        rw [← Host.graphOf_congr hs.functions, hgraph] at hgraph'
        exact Except.ok.inj hgraph'
      rw [Host.callFunction_apply m hfn hbody hargs hrun,
        Host.callFunction_apply n hfn' hbody hargs hrun']
      exact hserving.unit hab (hsame ▸ Graph.IsThrough.related (.inl rfl)) hfuel args s₁ s₁'
        ((hs.left hgrown).right hgrown')
    · unfold Interpose.callFunction
      rw [bind_apply, bind_apply, Exec.ask_apply, Exec.ask_apply, hfunction, hfn]
      dsimp only
      rcases hbody : fn.body with ⟨d, file⟩ | p | n
      · have hargs : d.params.length ≠ args.length := fun hargs => hcall ⟨d, file, hbody, hargs⟩
        dsimp only
        rw [if_pos hargs, if_pos hargs]
        exact .inr (.inr ⟨_, _, s, s', rfl, rfl, hs, .error _⟩)
      · exact Run.Along.same _ s s' hs
      · exact hserving.exec hab (hE.modest.native n args) s s' hs

/-! ### Requests -/

/-- A call for which there is room is answered alike. -/
theorem Serving.callValue (hserving : c.Serving lag again again') (hab : b ≤ a) (hE : c.Means E)
    {m n : Nat} (hfuel : lag.Behind m n) {f : Value} (hroom : a + f.frames ≤ c.limit)
    (args : List Value) :
    c.Along lag a b Eq (callValue again E.strict m f args) (callValue again' E n f args) := by
  have hpos := f.frames_pos
  refine along_entered (by omega) (by omega) ?_
  cases f with
  | func f => exact hserving.callFunction (by omega) hE hfuel f args
  | hook k =>
    have htwo : a + 2 ≤ c.limit := hroom
    exact along_entered (by omega) (by omega) (hserving.callHook (by omega) hE hfuel k args)
  | nothing => exact .throw _
  | bool x => exact .throw _
  | int x => exact .throw _
  | float x => exact .throw _

/-- A hook is registered in both hosts under the same number. -/
theorem along_registerHook (plan : HookPlan V.recorded) :
    c.Along lag a b Eq (Exec.change fun h => .ok (h.registerHook plan))
      (Exec.change fun h => .ok (h.registerHook plan)) := by
  refine along_change fun s s' hs => .ok ⟨?_, congrArg HookId.mk hs.size⟩
  have hpush : ∀ (h : Host V.recorded) k, (h.registerHook plan).1.hook? k
      = if k.index = h.hooks.size then some ⟨plan, .empty⟩ else h.hook? k :=
        fun h k => Array.getElem?_push ..
  -- the new hook takes the next number, and the one that is looked at is older
  have hold : ∀ (h : Host V.recorded), h.Settled c.hook c.transform c.image →
      (h.registerHook plan).1.hook? c.hook = h.hook? c.hook := by
    intro h hsettled
    obtain ⟨hook, hget, -⟩ := hsettled.remembers
    have hlt := (Array.getElem?_eq_some_iff.1 hget).1
    rw [hpush, if_neg (Nat.ne_of_lt hlt)]
  exact
    { hs with
      globals := by
        show (if plan.name.isEmpty then _ else _) = if plan.name.isEmpty then _ else _
        rw [hs.globals, hs.size]
      size := by
        show (s.hooks.push _).size = (s'.hooks.push _).size
        rw [Array.size_push, Array.size_push, hs.size]
      plan := by
        rw [hold s hs.settled, hold s' hs.settled']
        exact hs.plan
      others := fun k hk => by
        rw [hpush, hpush, hs.size]
        by_cases hnew : k.index = s'.hooks.size
        · rw [if_pos hnew, if_pos hnew]
          exact .inr ⟨_, _, rfl, rfl, .refl _⟩
        · rw [if_neg hnew, if_neg hnew]
          exact hs.others k hk
      settled := hs.settled.congr rfl rfl rfl (hold s hs.settled)
      settled' := hs.settled'.congr rfl rfl rfl (hold s' hs.settled') }

/-- Another hook than the one forgets the same in both hosts. -/
theorem along_refresh {k : HookId} (hk : k ≠ c.hook) (sig : Option Signature) :
    c.Along lag a b Eq (Exec.change (·.refresh k sig)) (Exec.change (·.refresh k sig)) := by
  refine along_change fun s s' hs => ?_
  unfold Host.refresh Host.hook
  rcases hs.hook? k with ⟨hget, hget'⟩ | ⟨hook, hook', hget, hget', -, hlike⟩
  · rw [hget, hget']
    exact .error _
  · have hdecisions := (hlike hk).decisions
    rw [hget, hget']
    rcases sig with _ | sig
    · refine .ok ⟨hs.modifyDecisions hk fun _ _ _ => .refl _, ?_⟩
      show decide (0 < hook.decisions.size) = decide (0 < hook'.decisions.size)
      rw [hdecisions.size]
    · exact .ok ⟨hs.modifyDecisions hk fun _ _ h => h.erase sig, hdecisions.contains sig⟩

/-- **Modest requests are answered alike.** -/
theorem Serving.serve (hserving : c.Serving lag again again') (hab : b ≤ a) (hE : c.Means E)
    {m n : Nat} (hfuel : lag.Behind m n) (r : Request V.recorded) (hr : r.Modest c.hook)
    (hroom : ∀ f args, r = .call f args → a + f.frames ≤ c.limit) :
    c.Along lag a b r.Like (serve again E.strict m r) (serve again' E n r) := by
  cases r with
  | resolve name =>
    refine along_ask fun s s' hs => ?_
    rw [Host.resolve, Host.resolve, hs.globals]
    exact .refl _
  | funcId name =>
    refine along_ask fun s s' hs => .ok ?_
    show s.funcId? name = s'.funcId? name
    rw [Host.funcId?, Host.funcId?, hs.globals]
  | funcName f =>
    refine along_ask fun s s' hs => .ok ?_
    show (s.function? f).map Function.name = (s'.function? f).map Function.name
    rw [Host.function?_congr hs.functions]
  -- requests that define something are not modest
  | define file src => exact hr.elim
  | defineNative name n => exact hr.elim
  | installPrelude => exact hr.elim
  | setGlobal name v =>
    refine along_change fun s s' hs => .ok ⟨?_, rfl⟩
    exact { hs with
      globals := congrArg (·.insert name v) hs.globals
      settled := hs.settled.congr rfl rfl rfl rfl
      settled' := hs.settled'.congr rfl rfl rfl rfl }
  | registerHook plan => exact along_registerHook plan
  | hook k =>
    intro s s' hs
    rcases (along_hook k : c.Along lag a b _ _ _) s s' hs with
      hlag | hstop | ⟨r, r', s₁, s₁', hx, hy, hs₁, hfits⟩
    · exact .inl hlag
    · exact .inr (.inl hstop)
    · refine .inr (.inr ⟨r, r', s₁, s₁', hx, hy, hs₁, ?_⟩)
      cases hfits with
      | error e => exact .error e
      | ok h => exact .ok (h.2.1 hr)
  | refresh k sig => exact along_refresh hr sig
  | provenance sig =>
    refine along_ask fun s s' hs => ?_
    rw [Host.provenance_congr hs.functions]
    exact .refl _
  | graphOf f =>
    refine along_ask fun s s' hs => ?_
    rw [Host.graphOf_congr hs.functions]
    exact .refl _
  | compile g => exact along_compile g
  | invoke u args => exact hserving.unit hab (Graph.IsThrough.related (.inl rfl)) hfuel args
  | call f args => exact hserving.callValue hab hE hfuel (hroom f args rfl) args
  | hookCall k args => exact hserving.callHook hab hE hfuel k args
  | hookGraph k sig => exact hserving.hookGraph hab hE k sig

end Interception

end Interpose
