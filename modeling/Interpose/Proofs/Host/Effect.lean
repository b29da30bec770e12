import Interpose.Proofs.Host.Defining

/-!
# What a successful definition has done

Defining a function goes through the name. A name that stands for a function keeps its number, and
what is registered under that number is replaced; any other name gets a number of its own. So under
every number there is in the end the last function that was defined under one of the names for it,
or what was there before if there is no such name. Several names may stand for one number, but only
where one of them did so before.
-/

set_option autoImplicit false

namespace Interpose

open Run

variable {V : Vocabulary}

namespace Host

variable {h h' : Host V} {fn : Function V} {fns : List (Function V)} {f g : FuncId}
  {fs : List FuncId} {name : String}

theorem funcId?_eq_some : h.funcId? name = some f ↔ h.globals.get? name = some (.func f) := by
  unfold funcId?
  constructor
  · intro hname
    split at hname
    · next hf =>
      cases hname
      exact hf
    · cases hname
  · intro hname
    rw [hname]

/-- What stands for a function is resolved to its number. -/
theorem resolve_of_funcId? (hname : h.funcId? name = some f) : h.resolve name = .ok (.func f) := by
  rw [resolve, funcId?_eq_some.1 hname]

/-! ## One function -/

/-- The name stands for the number that the definition answers with, and there the function is. -/
theorem installed (hinstall : h.install fn = .ok (h', f)) :
    h'.funcId? fn.name = some f ∧ ∀ g, h'.function? g = if f = g
      then some fn else h.function? g := by
  have hindex : ∀ {f g : FuncId}, f ≠ g → f.index ≠ g.index := by
    rintro ⟨i⟩ ⟨j⟩ hne rfl
    exact hne rfl
  unfold install at hinstall
  -- a name that has a number gets its function exchanged, and a new one gets the next number
  split at hinstall
  · next f₀ hf₀ =>
    split at hinstall
    · next hlt =>
      cases hinstall
      refine ⟨funcId?_eq_some.2 hf₀, fun g => ?_⟩
      by_cases hg : f = g
      · rw [if_pos hg, ← hg]
        exact Array.getElem?_setIfInBounds_self_of_lt hlt
      · rw [if_neg hg]
        exact Array.getElem?_setIfInBounds_ne (hindex hg)
    · cases hinstall
  · cases hinstall
  · cases hinstall
    refine ⟨funcId?_eq_some.2 ((Table.get?_insert ..).trans (if_pos rfl)), fun g => ?_⟩
    by_cases hg : ⟨h.functions.size⟩ = g
    · rw [if_pos hg, ← hg]
      exact Array.getElem?_push_size
    · rw [if_neg hg]
      refine (Array.getElem?_push ..).trans (if_neg fun hsize => hg ?_)
      cases g
      exact congrArg FuncId.mk hsize.symm

/-- A name that stands for a function keeps its number. -/
theorem funcId?_install (hinstall : h.install fn = .ok (h', f)) (hname : h.funcId? name = some g) :
    h'.funcId? name = some g := by
  rw [funcId?_eq_some] at hname ⊢
  have hdefined := definedAt_install hinstall
  by_cases hfn : name = fn.name
  · subst hfn
    unfold install at hinstall
    rw [hname] at hinstall
    dsimp only at hinstall
    split at hinstall
    · cases hinstall
      exact hname
    · cases hinstall
  · rw [hdefined.other name (by simpa using hfn)]
    exact hname

/-! ## One function after another -/

theorem funcId?_installAll (hall : h.installAll fns = (h', .ok fs))
    (hname : h.funcId? name = some g) : h'.funcId? name = some g := by
  induction fns generalizing h fs with
  | nil =>
    cases hall
    exact hname
  | cons fn rest ih =>
    obtain ⟨h₁, f, fs', hinstall, hrest, -⟩ := installAll_cons_eq_ok.1 hall
    exact ih hrest (funcId?_install hinstall hname)

/-- **Under every number there is the last function that was defined for it**, or what was there
before. -/
theorem function?_installAll (hall : h.installAll fns = (h', .ok fs)) (g : FuncId) : h'.function? g
    = (fns.filter fun fn => h'.funcId? fn.name = some g).getLast?.or (h.function? g) := by
  induction fns generalizing h fs with
  | nil =>
    cases hall
    rfl
  | cons fn rest ih =>
    obtain ⟨h₁, f, fs', hinstall, hrest, -⟩ := installAll_cons_eq_ok.1 hall
    obtain ⟨hname, hfunction⟩ := installed hinstall
    have hname' := funcId?_installAll hrest hname
    rw [ih hrest, hfunction]
    by_cases hg : f = g
    · subst hg
      rw [if_pos rfl, List.filter_cons_of_pos (by simpa using hname'), List.getLast?_cons]
      cases (rest.filter fun fn => h'.funcId? fn.name = some f).getLast? <;> rfl
    · rw [if_neg hg, List.filter_cons_of_neg]
      rw [hname', decide_eq_true_eq, Option.some.injEq]
      exact hg

/-- Two names stand for one number only if one of them did so before. -/
theorem shared_installAll (hall : h.installAll fns = (h', .ok fs)) {name₁ name₂ : String}
    (h₁ : name₁ ∈ fns.map (·.name)) (h₂ : name₂ ∈ fns.map (·.name)) (hne : name₁ ≠ name₂)
    (hf₁ : h'.funcId? name₁ = some f) (hf₂ : h'.funcId? name₂ = some f) :
    h.funcId? name₁ = some f ∨ h.funcId? name₂ = some f := by
  induction fns generalizing h fs with
  | nil => exact absurd h₁ List.not_mem_nil
  | cons fn rest ih =>
    obtain ⟨mid, f₀, fs', hinstall, hrest, -⟩ := installAll_cons_eq_ok.1 hall
    have hstays : ∀ {name}, name ≠ fn.name → mid.funcId? name = some f →
        h.funcId? name = some f := by
      intro name hname hmid
      rw [funcId?_eq_some] at hmid ⊢
      rw [← (definedAt_install hinstall).other name (by simpa using hname)]
      exact hmid
    -- if one of them stands for the number after the first definition, one did before it
    have hfirst : ∀ {name₁ name₂}, name₁ ≠ name₂ → name₂ ∈ (fn :: rest).map (·.name) →
        mid.funcId? name₁ = some f → h'.funcId? name₂ = some f →
        h.funcId? name₁ = some f ∨ h.funcId? name₂ = some f := by
      intro name₁ name₂ hne hmem hmid₁ hf₂
      by_cases hname₁ : name₁ = fn.name
      · have hname₂ : name₂ ≠ fn.name := fun heq => hne (hname₁.trans heq.symm)
        have hlater : name₂ ∈ rest.map (·.name) := (List.mem_cons.1 hmem).resolve_left hname₂
        obtain ⟨f₁, hf₁, hlt, -⟩ := (definedAt_install hinstall).named name₁ (by simp [hname₁])
        obtain ⟨f₃, hf₃, -, hcase⟩ := (definedAt_installAll hrest).named name₂ hlater
        have hsame₁ : f₁ = f := Option.some.inj ((funcId?_eq_some.2 hf₁).symm.trans hmid₁)
        have hsame₃ : f₃ = f := Option.some.inj ((funcId?_eq_some.2 hf₃).symm.trans hf₂)
        rw [hsame₁] at hlt
        rw [hsame₃] at hcase
        -- a new number is none that was there after the first definition, and `f` was
        rcases hcase with hold | hnew
        · exact .inr (hstays hname₂ (funcId?_eq_some.2 hold))
        · omega
      · exact .inl (hstays hname₁ hmid₁)
    obtain ⟨hname, -⟩ := installed hinstall
    have hafter : ∀ {name}, name = fn.name → h'.funcId? name = some f →
        mid.funcId? name = some f := by
      intro name heq hf
      have hkept := funcId?_installAll hrest hname
      rw [heq] at hf ⊢
      rw [hname, ← hkept, hf]
    by_cases hname₁ : name₁ = fn.name
    · exact hfirst hne h₂ (hafter hname₁ hf₁) hf₂
    by_cases hname₂ : name₂ = fn.name
    · exact (hfirst hne.symm h₁ (hafter hname₂ hf₂) hf₁).symm
    have hrest₁ := (List.mem_cons.1 h₁).resolve_left hname₁
    have hrest₂ := (List.mem_cons.1 h₂).resolve_left hname₂
    rcases ih hrest hrest₁ hrest₂ with hmid₁ | hmid₂
    · exact hfirst hne h₂ hmid₁ hf₂
    · exact (hfirst hne.symm h₁ hmid₂ hf₁).symm

end Host

/-! ## Requests -/

/-- The functions that a request defines, or why there are none. -/
def Request.definitions? : Request V → Option (Except Fault (List (Function V)))
  | .defineNative name n => some (.ok [⟨name, .native n⟩])
  | r => r.offered?

/-- A request for definitions that is answered has defined them all. -/
theorem installAll_of_definitions {E : Embedding V} {h h' : Host V} {n : Nat} {r : Request V}
    {offered : Except Fault (List (Function V))} {answer : r.Answer}
    (hr : r.definitions? = some offered) (hrun : perform E n r h = some (.ok answer, h')) :
    ∃ fns fs, offered = .ok fns ∧ h.installAll fns = (h', .ok fs) := by
  cases n with
  | zero => cases hrun
  | succ n =>
    cases r with
    | define file src =>
      cases hr
      have hdefine : some ((h.define file src).2, (h.define file src).1) = some (.ok answer, h') :=
        hrun
      unfold Host.define at hdefine
      rcases hoffered : Host.sourceFunctions file src with e | fns
      · rw [hoffered] at hdefine
        cases hdefine
      · rw [hoffered] at hdefine
        dsimp only at hdefine
        rcases hall : h.installAll fns with ⟨h₁, result⟩
        rw [hall] at hdefine
        cases hdefine
        exact ⟨fns, answer, rfl, hall⟩
    | defineNative name native =>
      cases hr
      -- one native is a list of one function
      have hchange : Exec.change (·.install ⟨name, .native native⟩) h = some (.ok answer, h') :=
        hrun
      rw [Exec.change_apply] at hchange
      rcases hinstall : h.install ⟨name, .native native⟩ with e | ⟨h₁, f⟩
      · rw [hinstall] at hchange
        cases hchange
      · rw [hinstall] at hchange
        cases hchange
        exact ⟨_, [answer], rfl, Host.installAll_cons_eq_ok.2 ⟨h', answer, [], hinstall, rfl, rfl⟩⟩
    | installPrelude =>
      cases hr
      rcases hall : h.installAll Host.preludeFunctions with ⟨h₁, result⟩
      have hinstall : some (result.map fun _ => (), h₁) = some (.ok answer, h') := by
        have hattempt : some ((h.installAll Host.preludeFunctions).2.map fun _ => (),
          (h.installAll Host.preludeFunctions).1) = some (.ok answer, h') := hrun
        rwa [hall] at hattempt
      cases result with
      | error e => cases hinstall
      | ok fs =>
        cases hinstall
        exact ⟨_, fs, rfl, hall⟩
    | _ => cases hr

/-- **A successful definition takes effect for the names that it defines.** Whatever the host is,
when a request for definitions is answered, each of the names is resolved to a function, and this is
the last one that was defined under any of the names for it. Two of the names share a function only
where one of them stood for it before. A function that none of the names stood for is kept, a name
that stood for a function keeps its number, and all other names stand for what they stood for. -/
theorem definitions_take_effect (E : Embedding V) {h h' : Host V} {n : Nat} {r : Request V}
    {offered : Except Fault (List (Function V))} {answer : r.Answer}
    (hr : r.definitions? = some offered) (hrun : perform E n r h = some (.ok answer, h')) :
    ∃ fns, offered = .ok fns
      ∧ (∀ fn ∈ fns, ∃ f last, h'.resolve fn.name = .ok (.func f) ∧ h'.function? f = some last
        ∧ (fns.filter fun fn' => h'.funcId? fn'.name = some f).getLast? = some last)
      ∧ (∀ fn₁ ∈ fns, ∀ fn₂ ∈ fns, fn₁.name ≠ fn₂.name → ∀ f, h'.funcId? fn₁.name = some f →
        h'.funcId? fn₂.name = some f → h.funcId? fn₁.name = some f ∨ h.funcId? fn₂.name = some f)
      ∧ (∀ f fn, h.function? f = some fn → (∀ fn' ∈ fns, h.funcId? fn'.name ≠ some f) →
        h'.function? f = some fn)
      ∧ (∀ name f, h.funcId? name = some f → h'.funcId? name = some f)
      ∧ ∀ name, (∀ fn ∈ fns, fn.name ≠ name) → h'.resolve name = h.resolve name := by
  obtain ⟨fns, fs, rfl, hall⟩ := installAll_of_definitions hr hrun
  have hdefined := Host.definedAt_installAll hall
  refine ⟨fns, rfl, fun fn hfn => ?_, fun fn₁ hfn₁ fn₂ hfn₂ hne f hf₁ hf₂ => ?_,
    fun f fn hf hothers => ?_, fun name f hname => Host.funcId?_installAll hall hname,
    fun name hname => ?_⟩
  · obtain ⟨f, hf, -, -⟩ := hdefined.named fn.name (List.mem_map_of_mem hfn)
    have hname := Host.funcId?_eq_some.2 hf
    have hmem : fn ∈ fns.filter fun fn' => h'.funcId? fn'.name = some f :=
      List.mem_filter.2 ⟨hfn, by simpa using hname⟩
    have hlast := List.getLast?_eq_some_getLast (List.ne_nil_of_mem hmem)
    refine ⟨f, _, Host.resolve_of_funcId? hname, ?_, hlast⟩
    rw [Host.function?_installAll hall, hlast, Option.some_or]
  · exact Host.shared_installAll hall (List.mem_map_of_mem hfn₁)
      (List.mem_map_of_mem hfn₂) hne hf₁ hf₂
  · have hlt : f.index < h.functions.size := (Array.getElem?_eq_some_iff.1 hf).1
    refine (hdefined.kept f hlt fun name hname hbound => ?_).1.trans hf
    obtain ⟨fn', hfn', rfl⟩ := List.mem_map.1 hname
    exact hothers fn' hfn' (Host.funcId?_eq_some.2 hbound)
  · have hother : name ∉ fns.map (·.name) := by
      intro hmem
      obtain ⟨fn, hfn, heq⟩ := List.mem_map.1 hmem
      exact hname fn hfn heq
    rw [Host.resolve, Host.resolve, hdefined.other name hother]

/-- A host with a function for which two names stand. -/
def aliased : Host ⟨Unit, Unit, Unit⟩ where
  functions := #[⟨"f", .source ⟨"f", [], [.expr 1 (.lit (.int 1))], 1⟩ "a"⟩]
  hooks := #[]
  globals := ⟨[("f", .func ⟨0⟩), ("g", .func ⟨0⟩)]⟩
  compiled := .empty
  backend := ⟨true, true, false⟩
  maxDepth := 8
  depth := 0
  serial := 0
  memory := ()

theorem reached_aliased : aliased.Reached redefining := by
  have hsource := (Host.Reached.bare ⟨true, true, false⟩ 8 ()).requested
    (show perform redefining 1 (.define "a" "fn f() { 1 }") _ = some (.ok [⟨0⟩], _) by cbv)
  exact hsource.requested (show perform redefining 1 (.setGlobal "g" (.func ⟨0⟩)) _
    = some (.ok (), aliased) by cbv)

/-- Both names of the function are defined anew, and another one is defined. -/
theorem definitions_take_effect_aliased : ∃ h' fns,
    perform redefining 1 (.define "b" refusedText) aliased = some (.ok [⟨0⟩, ⟨0⟩, ⟨1⟩], h')
    ∧ fns = refusedFunctions.map (fun f => ⟨f.name, .source f "b"⟩)
    ∧ (∀ fn ∈ fns, ∃ f last, h'.resolve fn.name = .ok (.func f) ∧ h'.function? f = some last
      ∧ (fns.filter fun fn' => h'.funcId? fn'.name = some f).getLast? = some last)
    ∧ ∀ name f, aliased.funcId? name = some f → h'.funcId? name = some f := by
  obtain ⟨h', hrun⟩ : ∃ h', perform redefining 1 (.define "b" refusedText) aliased
      = some (.ok [⟨0⟩, ⟨0⟩, ⟨1⟩], h') :=
        ⟨_, (perform_define readProgram_refusedText _).trans (by cbv)⟩
  have hoffered : Host.sourceFunctions (V := ⟨Unit, Unit, Unit⟩) "b" refusedText
      = .ok (refusedFunctions.map fun f => ⟨f.name, .source f "b"⟩) := by
    rw [Host.sourceFunctions, readProgram_refusedText]
  obtain ⟨fns, hfns, hlast, -, -, hkept, -⟩ :=
    definitions_take_effect redefining (r := .define "b" refusedText) rfl hrun
  exact ⟨h', fns, hrun, (Except.ok.inj (hoffered.symm.trans hfns)).symm, hlast, hkept⟩

/-- The first of two functions of one text, each defined once, is not the one that its name is
resolved to afterwards. -/
theorem definition_shared : aliased.Reached redefining
    ∧ Source.readProgram refusedText = .ok [⟨"g", [], [.expr 1 (.lit (.int 2))], 1⟩,
      ⟨"f", [], [.expr 1 (.lit (.int 3))], 1⟩, ⟨"h", [], [.expr 1 (.lit (.int 4))], 1⟩]
    ∧ ∃ h', perform redefining 1 (.define "b" refusedText) aliased = some (.ok [⟨0⟩, ⟨0⟩, ⟨1⟩], h')
      ∧ h'.resolve "g" = .ok (.func ⟨0⟩) ∧ h'.resolve "f" = .ok (.func ⟨0⟩)
      ∧ h'.function? ⟨0⟩ = some ⟨"f", .source ⟨"f", [], [.expr 1 (.lit (.int 3))], 1⟩ "b"⟩ :=
  ⟨reached_aliased, readProgram_refusedText, _,
    (perform_define readProgram_refusedText _).trans (by cbv), by cbv, by cbv, by cbv⟩

end Interpose
