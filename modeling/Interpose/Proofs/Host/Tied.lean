import Interpose.Proofs.Host.Recording
import Interpose.Proofs.Run.Along

/-!
# What requests keep

Two runs are *tied* by a relation of states if from related states both give the same result and end
in related states again, or neither ends. So it is with two hosts of which the one has the memory of
the other with something changed in it, where the first has a property: tied runs do the same, up to
this change, and keep the property.

A request is answered by what is done in the host at once and by the requests on the way, so it is
enough to look at the few ways in which a host is changed at once: a property is *stable* if all of
these keep it. What is tied for the requests on the way is then tied for every request.

What some hooks remember may be part of the property. These hooks are left out, and whoever needs
them has to say what becomes of them.
-/

set_option autoImplicit false

namespace Interpose

/-! ## Tied runs -/

namespace Run

variable {σ τ α β : Type} {R : σ → τ → Prop}

/-- From related states the runs give the same result and end in related states, or both give
none. -/
def Tied (R : σ → τ → Prop) (x : Run σ α) (y : Run τ α) : Prop :=
  ∀ s t, R s t → Option.Rel (fun p q => p.1 = q.1 ∧ R p.2 q.2) (x s) (y t)

namespace Tied

theorem ofExcept (r : Except Fault α) : Tied R (ofExcept r) (Run.ofExcept r) :=
  fun _ _ hst => .some ⟨rfl, hst⟩

theorem pure (a : α) : Tied R (Pure.pure a) (Pure.pure a) := ofExcept (.ok a)

theorem throw (e : Fault) : Tied (α := α) R (throw e) (throw e) := ofExcept (.error e)

theorem outOfFuel : Tied (α := α) R outOfFuel Run.outOfFuel := fun _ _ _ => .none

theorem modify {f : σ → σ} {g : τ → τ} (hfg : ∀ s t, R s t → R (f s) (g t)) :
    Tied R (modify f) (modify g) :=
  fun s t hst => .some ⟨rfl, hfg s t hst⟩

theorem bind {x : Run σ α} {y : Run τ α} {f : α → Run σ β} {g : α → Run τ β} (hxy : Tied R x y)
    (hfg : ∀ a, Tied R (f a) (g a)) : Tied R (x >>= f) (y >>= g) := by
  intro s t hst
  rw [bind_apply, bind_apply]
  have hfirst := hxy s t hst
  generalize x s = p at hfirst ⊢
  generalize y t = q at hfirst ⊢
  cases hfirst with
  | none => exact .none
  | @some p q hpq =>
    obtain ⟨r, s'⟩ := p
    obtain ⟨r', t'⟩ := q
    obtain ⟨rfl, hst'⟩ := hpq
    rcases r with e | a
    · exact .some ⟨rfl, hst'⟩
    · exact hfg a s' t' hst'

/-- Runs that depend on the state where they begin. -/
theorem get {f : σ → Run σ α} {g : τ → Run τ α} (hfg : ∀ s t, R s t → Tied R (f s) (g t)) :
    Tied R (get >>= f) (get >>= g) := by
  intro s t hst
  rw [get_bind_apply, get_bind_apply]
  exact hfg s t hst s t hst

theorem observe {x : Run σ α} {y : Run τ α} (hxy : Tied R x y) :
    Tied R (observe x) (observe y) := by
  intro s t hst
  show Option.Rel _ ((x s).map _) ((y t).map _)
  have hfirst := hxy s t hst
  generalize x s = p at hfirst ⊢
  generalize y t = q at hfirst ⊢
  cases hfirst with
  | none => exact .none
  | some hpq => exact .some ⟨congrArg Except.ok hpq.1, hpq.2⟩

/-- A graph ties what calls tie. -/
theorem invoke {env : Surroundings σ} {env' : Surroundings τ}
    (hglobal : ∀ s t, R s t → ∀ n, env.global s n = env'.global t n)
    (hcall : ∀ f args, Tied R (env.call f args) (env'.call f args)) (g : Graph) (fuel : Nat)
    (args : List Value) : Tied R (g.invoke env fuel args) (g.invoke env' fuel args) := by
  have hfuel : ∀ lag : Lag, lag.Behind fuel fuel := by
    intro lag
    cases lag <;> exact Nat.le_refl fuel
  -- either of the runs may be the one that has used up its fuel, so neither has
  have halong : ∀ lag : Lag,
      Run.Along lag R (fun _ => False) Eq (g.invoke env fuel args) (g.invoke env' fuel args) := by
    intro lag
    have henv : env.Along lag R (fun _ => False) env' := by
      refine ⟨hglobal, fun f args s t hst => ?_⟩
      have hanswer := hcall f args s t hst
      generalize env.call f args s = p at hanswer ⊢
      generalize env'.call f args t = q at hanswer ⊢
      cases hanswer with
      | none => exact .inl lag.explains_none
      | @some p q hpq => exact .inr (.inr ⟨p.1, q.1, p.2, q.2, rfl, rfl, hpq.2, hpq.1 ▸ .refl p.1⟩)
    exact along_invoke henv.global
      (fun frame e e' (he : e = e') => by subst he; exact along_operation henv frame e) (.refl g)
      (hfuel lag) args
  intro s t hst
  rcases hx : g.invoke env fuel args s with _ | ⟨r, s'⟩
  · rcases hy : g.invoke env' fuel args t with _ | ⟨r, t'⟩
    · exact .none
    · rcases (halong .second s t hst).of_second hy with ⟨_, _, _, hstop⟩ | ⟨_, _, hx', -⟩
      · exact hstop.elim
      · rw [hx] at hx'
        cases hx'
  · rcases (halong .first s t hst).of_first hx with ⟨_, _, _, hstop⟩ | ⟨r', t', hy, hst', hr⟩
    · exact hstop.elim
    · rw [hy]
      exact .some ⟨hr.eq, hst'⟩

end Tied

end Run

open Run

variable {V : Vocabulary} {α : Type} {μ : V.Memory → V.Memory} {P : Host V → Prop}
  {K : HookId → Prop}

/-! ## Hosts that differ in their memory -/

namespace Host

/-- The host with its memory changed. -/
def mapMemory (μ : V.Memory → V.Memory) (h : Host V) : Host V := { h with memory := μ h.memory }

/-- The first host has the property, and the second one is that host with its memory changed. -/
structure Beside (μ : V.Memory → V.Memory) (P : Host V → Prop) (h h' : Host V) : Prop where
  memory : h' = h.mapMemory μ
  holds : P h

theorem Beside.same {h : Host V} (hh : P h) : Beside id P h h := ⟨rfl, hh⟩

theorem mapMemory_install (h : Host V) (fn : Function V) :
    (h.mapMemory μ).install fn = (h.install fn).map fun p => (p.1.mapMemory μ, p.2) := by
  unfold install
  rw [show (h.mapMemory μ).globals = h.globals from rfl,
    show (h.mapMemory μ).functions = h.functions from rfl]
  rcases h.globals.get? fn.name with _ | v
  · rfl
  · cases v with
    | func f =>
      dsimp only
      split
      · rfl
      · rfl
    | _ => rfl

theorem mapMemory_installAll (h : Host V) (fns : List (Function V)) :
    (h.mapMemory μ).installAll fns = ((h.installAll fns).1.mapMemory μ, (h.installAll fns).2) := by
  induction fns generalizing h with
  | nil => rfl
  | cons fn rest ih =>
    unfold installAll
    rw [mapMemory_install]
    rcases h.install fn with e | ⟨h₁, f⟩
    · rfl
    · show (((h₁.mapMemory μ).installAll rest).1, _) = _
      rw [ih]

theorem mapMemory_define (h : Host V) (file src : String) :
    (h.mapMemory μ).define file src
      = ((h.define file src).1.mapMemory μ, (h.define file src).2) := by
  unfold define
  rcases sourceFunctions file src with e | fns
  · rfl
  · exact h.mapMemory_installAll fns

theorem mapMemory_compile (h : Host V) (g : Graph) :
    (h.mapMemory μ).compile g = (h.compile g).map fun p => (p.1.mapMemory μ, p.2) := by
  unfold compile
  rw [show (h.mapMemory μ).backend = h.backend from rfl]
  rcases h.backend.prepare g with e | g'
  · rfl
  · rfl

theorem mapMemory_refresh (h : Host V) (k : HookId) (sig : Option Signature) :
    (h.mapMemory μ).refresh k sig = (h.refresh k sig).map fun p => (p.1.mapMemory μ, p.2) := by
  unfold refresh
  rw [show (h.mapMemory μ).hook k = h.hook k from rfl]
  rcases h.hook k with e | hook
  · rfl
  · cases sig with
    | none => rfl
    | some sig => rfl

/-- A graph that is compiled leaves everything but the count of compilations. -/
theorem compile_apply {h h' : Host V} {g : Graph} {u : Compiled}
    (hcompile : h.compile g = .ok (h', u)) :
    h' = { h with serial := h.serial + 1 } ∧ h.backend.prepare g = .ok u.graph
      ∧ u.hidden = h.backend.hides := by
  unfold compile at hcompile
  rcases hprepare : h.backend.prepare g with e | g'
  all_goals
    rw [hprepare] at hcompile
    cases hcompile
  exact ⟨rfl, rfl, rfl⟩

/-- A graph is refused by the backend or not at all. -/
theorem compile_refused {h : Host V} {g : Graph} {e : Fault} (hcompile : h.compile g = .error e) :
    h.backend.prepare g = .error e := by
  unfold compile at hcompile
  rcases hprepare : h.backend.prepare g with e' | g'
  all_goals
    rw [hprepare] at hcompile
    cases hcompile
  rfl

end Host

theorem Run.Tied.same {x y : Exec V α} (hxy : Tied (Host.Beside id P) x y) {h : Host V} (hh : P h) :
    x h = y h := by
  have hend := hxy h h (.same hh)
  generalize x h = p at hend ⊢
  generalize y h = q at hend ⊢
  cases hend with
  | none => rfl
  | @some p q hpq => exact congrArg some (Prod.ext hpq.1 hpq.2.memory.symm)

theorem Run.Tied.keeps {x y : Exec V α} (hxy : Tied (Host.Beside μ P) x y) {h h' : Host V}
    (hh : P h) {r : Except Fault α} (hrun : x h = some (r, h')) : P h' := by
  have hend := hxy h (h.mapMemory μ) ⟨rfl, hh⟩
  rw [hrun] at hend
  generalize y (h.mapMemory μ) = q at hend
  cases hend with
  | some hpq => exact hpq.2.holds

theorem tied_of_same {x y : Exec V α} (hsame : ∀ h, P h → x h = y h)
    (hkeeps : ∀ h, P h → ∀ r h', y h = some (r, h') → P h') : Tied (Host.Beside id P) x y := by
  rintro h _ ⟨rfl, hh⟩
  show Option.Rel _ (x h) (y h)
  rw [hsame h hh]
  rcases hrun : y h with _ | ⟨r, h'⟩
  · exact .none
  · exact .some ⟨rfl, .same (hkeeps h hh r h' hrun)⟩

/-! ## Stable properties -/

/-- The property is kept by every change that is made in a host at once, apart from calls that enter
and leave. What the hooks `K` remember is of no account for it. The memory is not spoken of, for it
is changed by programs. -/
structure Host.Firm (P : Host V → Prop) (K : HookId → Prop) : Prop where
  install : ∀ (h : Host V) fn h' f, P h → h.install fn = .ok (h', f) → P h'
  setGlobal : ∀ (h : Host V) name v, P h → P (h.setGlobal name v)
  registerHook : ∀ (h : Host V) plan, P h → P (h.registerHook plan).1
  compile : ∀ (h : Host V) g h' u, P h → h.compile g = .ok (h', u) → P h'
  decisions : ∀ (h : Host V) k f, K k → P h → P (h.modifyDecisions k f)

/-- The property is kept by every change that is made in a host at once. -/
structure Host.Stable (P : Host V → Prop) (K : HookId → Prop) : Prop extends Host.Firm P K where
  depth : ∀ (h : Host V) depth, P h → P { h with depth }

/-- The request concerns no hooks but those. -/
def Request.Within (K : HookId → Prop) : Request V → Prop
  | .refresh k _ => K k
  | .call (.hook k) _ => K k
  | .hookCall k _ => K k
  | .hookGraph k _ => K k
  | _ => True

theorem Request.within_all (r : Request V) : r.Within fun _ => True := by
  cases r with
  | call f args => cases f <;> exact trivial
  | _ => exact trivial

/-- A question that is not about the memory. -/
theorem tied_ask {f : Host V → Except Fault α} (hf : ∀ h, f (h.mapMemory μ) = f h) :
    Tied (Host.Beside μ P) (Exec.ask f) (Exec.ask f) := by
  refine .get fun h h' hbeside => ?_
  rw [hbeside.memory, hf]
  exact .ofExcept _

/-- A change that has nothing to do with the memory. -/
theorem tied_change {f : Host V → Except Fault (Host V × α)}
    (hf : ∀ h, f (h.mapMemory μ) = (f h).map fun p => (p.1.mapMemory μ, p.2))
    (hkeeps : ∀ h h' a, P h → f h = .ok (h', a) → P h') :
    Tied (Host.Beside μ P) (Exec.change f) (Exec.change f) := by
  rintro h _ ⟨rfl, hh⟩
  rw [Exec.change_apply, Exec.change_apply, hf]
  rcases hchange : f h with e | ⟨h', a⟩
  · exact .some ⟨rfl, rfl, hh⟩
  · exact .some ⟨rfl, rfl, hkeeps h h' a hh hchange⟩

theorem tied_attempt {f : Host V → Host V × Except Fault α}
    (hf : ∀ h, f (h.mapMemory μ) = ((f h).1.mapMemory μ, (f h).2)) (hkeeps : ∀ h, P h → P (f h).1) :
    Tied (Host.Beside μ P) (Exec.attempt f) (Exec.attempt f) := by
  rintro h _ ⟨rfl, hh⟩
  show Option.Rel _ (some ((f h).2, (f h).1)) (some ((f (h.mapMemory μ)).2, (f (h.mapMemory μ)).1))
  rw [hf]
  exact .some ⟨rfl, rfl, hkeeps h hh⟩

theorem tied_entered (hdepth : ∀ (h : Host V) depth, P h → P { h with depth }) {x y : Exec V α}
    (hxy : Tied (Host.Beside μ P) x y) :
    Tied (Host.Beside μ P) (Exec.entered x) (Exec.entered y) := by
  rintro h _ ⟨rfl, hh⟩
  by_cases hroom : h.depth < h.maxDepth
  · have hroom' : (h.mapMemory μ).depth < (h.mapMemory μ).maxDepth := hroom
    have hrun := hxy _ _ ⟨rfl, hdepth h (h.depth + 1) hh⟩
    rw [Exec.entered_apply x hroom, Exec.entered_apply y hroom']
    show Option.Rel _ (Option.map _ _)
        (Option.map _ (y (Host.mapMemory μ { h with depth := h.depth + 1 })))
    generalize x { h with depth := h.depth + 1 } = p at hrun ⊢
    generalize y (Host.mapMemory μ { h with depth := h.depth + 1 }) = q at hrun ⊢
    cases hrun with
    | none => exact .none
    | @some p q hpq =>
      obtain ⟨r, h₁⟩ := p
      obtain ⟨r', h₁'⟩ := q
      obtain ⟨rfl, rfl, hh₁⟩ := hpq
      exact .some ⟨rfl, rfl, hdepth h₁ _ hh₁⟩
  · have hfull : h.maxDepth ≤ h.depth := Nat.not_lt.1 hroom
    have hfull' : (h.mapMemory μ).maxDepth ≤ (h.mapMemory μ).depth := hfull
    rw [Exec.entered_refused x hfull, Exec.entered_refused y hfull']
    exact .some ⟨rfl, rfl, hh⟩

theorem Host.Firm.installAll (hP : Host.Firm P K) {h : Host V} (hh : P h)
    (fns : List (Function V)) : P (h.installAll fns).1 := by
  induction fns generalizing h with
  | nil => exact hh
  | cons fn rest ih =>
    unfold Host.installAll
    rcases hinstall : h.install fn with e | ⟨h₁, f⟩
    · exact hh
    · exact ih (hP.install h fn h₁ f hh hinstall)

theorem Host.Firm.define (hP : Host.Firm P K) {h : Host V} (hh : P h) (file src : String) :
    P (h.define file src).1 := by
  unfold Host.define
  rcases sourceFunctions file src with e | fns
  · exact hh
  · exact hP.installAll hh fns

theorem Host.Firm.refresh (hP : Host.Firm P K) {h h' : Host V} {k : HookId} {sig : Option Signature}
    {b : Bool} (hk : K k) (hh : P h) (hrefresh : h.refresh k sig = .ok (h', b)) : P h' := by
  unfold Host.refresh at hrefresh
  rcases hhook : h.hook k with e | hook
  all_goals rw [hhook] at hrefresh
  · cases hrefresh
  · rcases sig with _ | sig
    all_goals
      cases hrefresh
      exact hP.decisions h k _ hk hh

/-! ## Requests -/

/-- Calls a source function by a compiled graph that `unit` gets for it, and the others as ever. -/
def callFunctionBy (again : (r : Request V) → Exec V r.Answer) (E : Embedding V)
    (unit : FuncId → Exec V Compiled) (fuel : Nat) (f : FuncId) (args : List Value) :
    Exec V Value := do
  let fn ← Exec.ask (·.function f)
  match fn.body with
  | .primitive p => Run.ofTrap (p.apply args)
  | .native n => (E.native n args).exec again
  | .source d _ =>
    if d.params.length ≠ args.length then
      throw (.trap (.arityMismatch d.params.length args.length))
    (← unit f).call again fuel args

/-- Calls a value, where source functions are called by compiled graphs that `unit` gets for
them. -/
def callValueBy (again : (r : Request V) → Exec V r.Answer) (E : Embedding V)
    (unit : FuncId → Exec V Compiled) (fuel : Nat) (f : Value) (args : List Value) : Exec V Value :=
  Exec.entered do
    match f with
    | .func f => callFunctionBy again E unit fuel f args
    | .hook k => Exec.entered (callHook again E fuel k args)
    | v => throw (.trap (.notCallable v.typeOf))

/-- Answers a request, where source functions are called by compiled graphs that `unit` gets for
them. -/
def serveBy (again : (r : Request V) → Exec V r.Answer) (E : Embedding V)
    (unit : FuncId → Exec V Compiled) (fuel : Nat) : (r : Request V) → Exec V r.Answer
  | .call f args => callValueBy again E unit fuel f args
  | r => serve again E fuel r

/-- A host gets the compiled graphs of source functions from what it keeps for them. -/
theorem serveBy_directUnit (again : (r : Request V) → Exec V r.Answer) (E : Embedding V)
    (fuel : Nat) (r : Request V) : serveBy again E directUnit fuel r = serve again E fuel r := by
  cases r <;> rfl

/-- The requests on the way are tied, and so are the programs of natives and of transforms, except
those that are run for other hooks. -/
structure Tying (μ : V.Memory → V.Memory) (P : Host V → Prop) (K : HookId → Prop)
    (E E' : Embedding V) (again again' : (r : Request V) → Exec V r.Answer) : Prop where
  firm : Host.Firm P K
  request : ∀ r, Tied (Host.Beside μ P) (again r) (again' r)
  native : ∀ n args, Tied (Host.Beside μ P) ((E.native n args).exec again)
    ((E'.native n args).exec again')
  transform : ∀ t o g, K o.hook →
    Tied (Host.Beside μ P) ((E.transform t o g).exec again) ((E'.transform t o g).exec again')

/-- A program is tied if what it asks for is, and if nothing that it writes is of any account. -/
theorem tied_exec (hmemory : ∀ (h : Host V) memory, P h → P { h with memory })
    {again again' : (r : Request V) → Exec V r.Answer}
    (hagain : ∀ r, Tied (Host.Beside id P) (again r) (again' r)) (p : Prog V α) :
    Tied (Host.Beside id P) (p.exec again) (p.exec again') := by
  induction p with
  | done a => exact .pure a
  | fail e => exact .throw e
  | read next ih =>
    refine .get fun h h' hbeside => ?_
    obtain rfl := hbeside.memory
    exact ih h.memory
  | write m next ih =>
    refine .bind (.modify fun h h' hbeside => ?_) fun _ => ih
    obtain rfl := hbeside.memory
    exact ⟨rfl, hmemory h m hbeside.holds⟩
  | ask r next ih => exact .bind (hagain r).observe ih

/-- The compiled graph of a source function is got without harm if what is kept for functions is of
no account. -/
theorem Host.Firm.directUnit (hP : Host.Firm P K)
    (hcompiled : ∀ (h : Host V) compiled, P h → P { h with compiled }) (f : FuncId) :
    Tied (Host.Beside μ P) (directUnit f) (Interpose.directUnit f) := by
  refine .get fun h h' hbeside => ?_
  obtain rfl := hbeside.memory
  rw [show (h.mapMemory μ).compiled = h.compiled from rfl]
  rcases h.compiled.get? f with _ | u
  · refine .get fun h h' hbeside => ?_
    obtain rfl := hbeside.memory
    refine .bind (.ofExcept _) fun g => ?_
    refine .bind (tied_change (fun h => h.mapMemory_compile g) fun h h' u => hP.compile h g h' u)
      fun u => ?_
    refine .bind (.modify fun h h' hbeside => ?_) fun _ => .pure u
    obtain rfl := hbeside.memory
    exact ⟨rfl, hcompiled h _ hbeside.holds⟩
  · exact .pure u

namespace Tying

variable {E E' : Embedding V} {again again' : (r : Request V) → Exec V r.Answer}

theorem of_memory (hfirm : Host.Firm P K)
    (hmemory : ∀ (h : Host V) memory, P h → P { h with memory })
    (hagain : ∀ r, Tied (Host.Beside id P) (again r) (again' r)) :
    Tying id P K E E again again' where
  firm := hfirm
  request := hagain
  native _ _ := tied_exec hmemory hagain _
  transform _ _ _ _ := tied_exec hmemory hagain _

variable (ht : Tying μ P K E E' again again') {unit unit' : FuncId → Exec V Compiled}
  (hunit : ∀ f, Tied (Host.Beside μ P) (unit f) (unit' f))

include ht

theorem compiled (u : Compiled) (fuel : Nat) (args : List Value) :
    Tied (Host.Beside μ P) (u.call again fuel args) (u.call again' fuel args) := by
  refine .invoke (fun h h' hbeside n => ?_)
    (fun f args => ht.request (.call f args)) u.graph fuel args
  rw [hbeside.memory]
  rfl

theorem buildDecision {k : HookId} (hk : K k) (sig : Signature) (t : V.Transform) :
    Tied (Host.Beside μ P) (buildDecision again E k sig t) (buildDecision again' E' k sig t) := by
  refine .get fun h h' hbeside => ?_
  rw [show h'.provenance sig = h.provenance sig by rw [hbeside.memory]; rfl]
  rcases h.provenance sig with e | p
  · exact .pure _
  · refine .bind (.ofExcept _) fun g => .bind (ht.transform t ⟨k, sig⟩ g hk) ?_
    rintro (_ | g')
    · exact .pure _
    · exact .bind (tied_change (fun h => h.mapMemory_compile g') fun h h' u =>
        ht.firm.compile h g' h' u)
        fun u => .pure _

theorem decide? {k : HookId} (hk : K k) (sig : Signature) (t : V.Transform) :
    Tied (Host.Beside μ P) (decide? again E k sig t) (decide? again' E' k sig t) := by
  refine .bind (tied_ask fun h => rfl) fun hook => ?_
  rcases hook.decisions.get? sig with _ | d
  · refine .bind (ht.buildDecision hk sig t) fun d => .bind (.modify fun h h' hbeside => ?_)
      fun _ => .pure _
    obtain rfl := hbeside.memory
    exact ⟨rfl, ht.firm.decisions h k _ hk hbeside.holds⟩
  · exact .pure _

theorem callHook {k : HookId} (hk : K k) (fuel : Nat) (args : List Value) :
    Tied (Host.Beside μ P) (callHook again E fuel k args) (callHook again' E' fuel k args) := by
  refine .bind (tied_ask fun h => rfl) fun hook => ?_
  rcases args with _ | ⟨callee, rest⟩
  · exact .throw _
  · refine .bind (.ofExcept _) fun handler => ?_
    rcases handler with t | n
    · refine .bind (ht.decide? hk _ t) fun d => ?_
      rcases d with u | _
      · exact ht.compiled u fuel rest
      · exact ht.request (.call callee rest)
    · exact ht.native n _

theorem hookGraph {k : HookId} (hk : K k) (sig : Signature) :
    Tied (Host.Beside μ P) (hookGraph again E k sig) (hookGraph again' E' k sig) := by
  refine .bind (tied_ask fun h => rfl) fun hook => .bind (.ofExcept _) fun handler => ?_
  rcases handler with t | n
  · refine .bind (ht.decide? hk sig t) fun d => ?_
    rcases d with u | _
    · exact .pure _
    · exact .pure _
  · exact .pure _

include hunit

theorem callFunction (fuel : Nat) (f : FuncId) (args : List Value) :
    Tied (Host.Beside μ P) (callFunctionBy again E unit fuel f args)
      (callFunctionBy again' E' unit' fuel f args) := by
  refine .bind (tied_ask fun h => rfl) fun fn => ?_
  rcases fn.body with ⟨d, file⟩ | p | n
  · dsimp only
    split
    · exact .throw _
    · exact .bind (hunit f) fun u => ht.compiled u fuel args
  · exact .ofExcept _
  · exact ht.native n args

theorem callValue (hdepth : ∀ (h : Host V) depth, P h → P { h with depth }) (fuel : Nat) {f : Value}
    (hf : ∀ k, f = .hook k → K k) (args : List Value) :
    Tied (Host.Beside μ P) (callValueBy again E unit fuel f args)
      (callValueBy again' E' unit' fuel f args) := by
  refine tied_entered hdepth ?_
  cases f with
  | func f => exact ht.callFunction hunit fuel f args
  | hook k => exact tied_entered hdepth (ht.callHook (hf k rfl) fuel args)
  | _ => exact .throw _

omit hunit in
/-- A request that is no call enters nothing. -/
theorem serve_apart (fuel : Nat) {r : Request V} (hr : r.Within K)
    (hcall : ∀ f args, r ≠ .call f args) :
    Tied (Host.Beside μ P) (Interpose.serve again E fuel r) (Interpose.serve again' E' fuel r) := by
  have hP := ht.firm
  cases r with
  | define file src =>
    exact tied_attempt (fun h => h.mapMemory_define file src) fun h hh => hP.define hh file src
  | defineNative name n =>
    exact tied_change (fun h => h.mapMemory_install ⟨name, .native n⟩) fun h h' f =>
      hP.install h _ h' f
  | installPrelude =>
    unfold Interpose.serve
    -- which functions these are is of no account
    generalize Host.preludeFunctions = fns
    refine tied_attempt (fun h => ?_) fun h hh => ?_
    · rw [h.mapMemory_installAll fns]
    · exact hP.installAll hh fns
  | setGlobal name v =>
    refine tied_change (fun h => rfl) fun h h' _ hh hset => ?_
    cases hset
    exact hP.setGlobal h name v hh
  | registerHook plan =>
    refine tied_change (fun h => rfl) fun h h' _ hh hregister => ?_
    cases hregister
    exact hP.registerHook h plan hh
  | refresh k sig =>
    exact tied_change (fun h => h.mapMemory_refresh k sig) fun _ _ _ hh hrefresh =>
      hP.refresh hr hh hrefresh
  | compile g =>
    exact tied_change (fun h => h.mapMemory_compile g) fun h h' u => hP.compile h g h' u
  | invoke u args => exact ht.compiled u fuel args
  | call f args => exact absurd rfl (hcall f args)
  | hookCall k args => exact ht.callHook hr fuel args
  | hookGraph k sig => exact ht.hookGraph hr sig
  | _ => exact tied_ask fun h => rfl

/-- **What is tied on the way is tied.** -/
theorem serve (hdepth : ∀ (h : Host V) depth, P h → P { h with depth }) (fuel : Nat) {r : Request V}
    (hr : r.Within K) :
    Tied (Host.Beside μ P) (serveBy again E unit fuel r) (serveBy again' E' unit' fuel r) := by
  cases r with
  | call f args =>
    refine ht.callValue hunit hdepth fuel (fun k hk => ?_) args
    subst hk
    exact hr
  | _ => exact ht.serve_apart fuel hr nofun

end Tying

end Interpose
