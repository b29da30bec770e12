import Mathlib
import Interpose.Proofs.Host.Alike
import Interpose.Proofs.Host.Tied

/-!
# What a host keeps for its functions

A host keeps the compiled graphs of functions that were called directly. A function may be defined
anew at any time, also by natives and transforms while it is being called, and its compiled graph is
then dropped. So at every moment what is kept for a function is what compiling its graph would give.

Two things are said with it. A run that is watched, and broken off at the first request that finds
something stale, is never broken off. And a host that compiles a function's graph anew for every
direct call answers all requests in the same way.
-/

set_option autoImplicit false

namespace Interpose

open Run

variable {V : Vocabulary}

namespace Host

/-- What is kept is kept for source functions only, and is what compiling their graphs gives now. -/
def Current (h : Host V) : Prop :=
  ∀ f u, h.compiled.get? f = some u → h.IsSource f
    ∧ ∃ g, h.graphOf f = .ok g ∧ h.backend.prepare g = .ok u.graph ∧ u.hidden = h.backend.hides

variable {h h' : Host V} {f : FuncId}

theorem Current.kept (hh : h.Current) : h.Kept := by
  intro f u hu
  obtain ⟨-, g, hg, hprepare, -⟩ := hh f u hu
  exact ⟨g, hg, hprepare⟩

/-! ## Changes of a host -/

/-- Only source functions have graphs. -/
theorem isSource_of_graphOf {g : Graph} (hg : h.graphOf f = .ok g) : h.IsSource f := by
  unfold graphOf at hg
  split at hg
  · next name d file hget => exact ⟨name, d, file, hget⟩
  · cases hg

theorem IsSource.congr (hf : h.IsSource f) (hfunction : h'.function? f = h.function? f) :
    h'.IsSource f := by
  obtain ⟨name, d, file, hget⟩ := hf
  exact ⟨name, d, file, hfunction.trans hget⟩

/-- What is kept is right as long as no function changes for which something is kept. -/
theorem Current.of_functions (hh : h.Current) (hbackend : h'.backend = h.backend)
    (hcompiled : ∀ f u, h'.compiled.get? f = some u → h.compiled.get? f = some u
      ∧ h'.function? f = h.function? f) :
    h'.Current := by
  intro f u hu
  obtain ⟨hold, hfunction⟩ := hcompiled f u hu
  obtain ⟨hsource, g, hg, hprepare, hhidden⟩ := hh f u hold
  exact ⟨hsource.congr hfunction, g, (graphOf_congr_at hfunction).trans hg, hbackend ▸ hprepare,
    hbackend ▸ hhidden⟩

theorem Current.of_same (hh : h.Current) (hfunctions : h'.functions = h.functions)
    (hbackend : h'.backend = h.backend) (hcompiled : h'.compiled = h.compiled) : h'.Current :=
  hh.of_functions hbackend fun f _ hu => ⟨hcompiled ▸ hu, function?_congr hfunctions f⟩

/-- A new function has a number for which nothing is kept. -/
theorem Current.addFunction (hh : h.Current) (fn : Function V) : (h.addFunction fn).1.Current := by
  refine hh.of_functions rfl fun f u hu => ⟨hu, ?_⟩
  obtain ⟨⟨name, d, file, hget⟩, -⟩ := hh f u hu
  have hlt : f.index < h.functions.size := (Array.getElem?_eq_some_iff.1 hget).1
  exact (Array.getElem?_push_lt hlt).trans (Array.getElem?_eq_getElem hlt).symm

/-- Installing a function drops what was kept for it. -/
theorem Current.install (hh : h.Current) {fn : Function V} (hinstall : h.install fn = .ok (h', f)) :
    h'.Current := by
  unfold Host.install at hinstall
  split at hinstall
  · next f₀ _ =>
    split at hinstall
    · cases hinstall
      refine hh.of_functions rfl fun f' u hu => ?_
      have hget : (h.compiled.erase f).get? f' = some u := hu
      rw [Table.get?_erase] at hget
      split at hget
      · cases hget
      · next hne =>
        have hindex : f.index ≠ f'.index :=
          fun hi => hne (by cases f; cases f'; exact congrArg FuncId.mk hi)
        exact ⟨hget, Array.getElem?_setIfInBounds_ne hindex⟩
    · cases hinstall
  · cases hinstall
  -- the name is new, so no old number changes its function
  · cases hinstall
    exact hh.addFunction fn

theorem stable_current : Stable (V := V) Current fun _ => True where
  install _ _ _ _ hh hinstall := hh.install hinstall
  setGlobal _ _ _ hh := hh.of_same rfl rfl rfl
  registerHook _ _ hh := hh.of_same rfl rfl rfl
  compile _ _ _ _ hh hcompile := (compile_apply hcompile).1 ▸ hh.of_same rfl rfl rfl
  depth _ _ hh := hh.of_same rfl rfl rfl
  decisions _ _ _ _ hh := hh.of_same rfl rfl rfl

theorem current_bare (backend : Backend) (maxDepth : Nat) (memory : V.Memory) :
    (bare backend maxDepth memory : Host V).Current := by
  intro f u hu
  have hnone : (none : Option Compiled) = some u := (Table.get?_empty f).symm.trans hu
  cases hnone

/-- What is so of a bare host, and of a host that gets another function, is so of a host with the
operators. -/
theorem create_induction {P : Host V → Prop} (hadd : ∀ h fn, P h → P (h.addFunction fn).1)
    {backend : Backend} {maxDepth : Nat} {memory : V.Memory}
    (hbare : P (bare backend maxDepth memory)) : P (create backend maxDepth memory) := by
  unfold create
  generalize preludeFunctions = fns
  generalize bare backend maxDepth memory = h at hbare
  induction fns generalizing h with
  | nil => exact hbare
  | cons fn rest ih => exact ih _ (hadd h fn hbare)

theorem current_create (backend : Backend) (maxDepth : Nat) (memory : V.Memory) :
    (create backend maxDepth memory : Host V).Current :=
  create_induction (fun _ fn hh => hh.addFunction fn) (current_bare backend maxDepth memory)

end Host

/-! ## Direct calls -/

/-- Compiles the graph of a source function, whether or not a compiled one is kept. What was
compiled before has the number of that compilation, since numbers are there to tell compilations
apart; all else is made anew. -/
def recompiledUnit (f : FuncId) : Exec V Compiled := do
  let g ← Run.ofGraph ((← get).graphOf f)
  match (← get).compiled.get? f with
  | some u =>
    let graph ← Run.ofExcept ((← get).backend.prepare g)
    return ⟨u.serial, graph, (← get).backend.hides⟩
  | none =>
    let u ← Exec.change (·.compile g)
    modify fun h => { h with compiled := h.compiled.insert f u }
    return u

/-- What is kept after a direct call is right: if anything was compiled, it is the graph of the
function. -/
theorem current_directUnit {h h' : Host V} {f : FuncId} {r : Except Fault Compiled} (hh : h.Current)
    (hrun : directUnit f h = some (r, h')) : h'.Current := by
  unfold directUnit at hrun
  rw [get_bind_apply] at hrun
  rcases hget : h.compiled.get? f with _ | u
  all_goals
    rw [hget] at hrun
    dsimp only at hrun
  · rw [get_bind_apply, bind_apply] at hrun
    rcases hgraph : h.graphOf f with e | g
    · rw [hgraph] at hrun
      cases hrun
      exact hh
    · rw [hgraph] at hrun
      have hchange : (Exec.change (·.compile g) >>= fun u => do
          modify fun h => { h with compiled := h.compiled.insert f u }
          return u : Exec V Compiled) h = some (r, h') := hrun
      rw [bind_apply, Exec.change_apply] at hchange
      rcases hcompile : h.compile g with e | ⟨h₁, u⟩
      all_goals
        rw [hcompile] at hchange
        cases hchange
      · exact hh
      · obtain ⟨rfl, hprepare, hhidden⟩ := Host.compile_apply hcompile
        -- only the function that was called has a new compiled graph
        intro f' u' hu'
        have hinserted : (h.compiled.insert f u).get? f' = some u' := hu'
        rw [Table.get?_insert] at hinserted
        split at hinserted
        · next hff =>
          subst hff
          cases hinserted
          exact ⟨(Host.isSource_of_graphOf hgraph).congr rfl, g,
            (Host.graphOf_congr rfl f).trans hgraph, hprepare, hhidden⟩
        · exact (hh.of_same rfl rfl rfl : Host.Current { h with serial := h.serial + 1 }) f'
            u' hinserted
  · cases hrun
    exact hh

/-- **A host gets for a direct call what compiling anew gives**, and keeps what is right. -/
theorem tied_recompiledUnit (f : FuncId) :
    Tied (Host.Beside id Host.Current) (recompiledUnit f : Exec V Compiled) (directUnit f) := by
  refine tied_of_same (fun h hh => ?_) fun h hh r h' => current_directUnit hh
  unfold recompiledUnit directUnit
  rw [get_bind_apply, get_bind_apply]
  rcases hget : h.compiled.get? f with _ | u
  · dsimp only
    rw [get_bind_apply, bind_apply, bind_apply]
    rcases h.graphOf f with e | g
    · rfl
    · have hlowered : (Run.ofGraph (.ok g) : Exec V Graph) h = some (.ok g, h) := rfl
      rw [hlowered]
      dsimp only
      rw [get_bind_apply, hget]
  · obtain ⟨-, g, hg, hprepare, hhidden⟩ := hh f u hget
    have hlowered : (Run.ofGraph (h.graphOf f) : Exec V Graph) h = some (.ok g, h) := by
      rw [hg]
      rfl
    rw [bind_apply, hlowered]
    dsimp only
    rw [get_bind_apply, hget]
    dsimp only
    rw [get_bind_apply, hprepare, bind_apply, ofExcept_apply]
    dsimp only
    rw [get_bind_apply, ← hhidden]

theorem tied_directUnit (f : FuncId) :
    Tied (Host.Beside id Host.Current) (directUnit f : Exec V Compiled) (directUnit f) :=
  tied_of_same (fun _ _ => rfl) fun _ hh _ _ => current_directUnit hh

/-- Answers a request within some fuel, where source functions are called by compiled graphs that
`unit` gets. -/
def performBy (unit : FuncId → Exec V Compiled) (E : Embedding V) :
    Nat → (r : Request V) → Exec V r.Answer
  | 0, _ => .outOfFuel
  | n + 1, r => serveBy (performBy unit E n) E unit n r

theorem performBy_directUnit (E : Embedding V) (n : Nat) (r : Request V) :
    performBy directUnit E n r = perform E n r := by
  induction n generalizing r with
  | zero => rfl
  | succ n ih =>
    have hagain : performBy directUnit E n = perform E n := funext ih
    rw [performBy, serveBy_directUnit, hagain]
    rfl

/-- Answers a request within some fuel in a host that compiles anew for every direct call. -/
def performAnew (E : Embedding V) : Nat → (r : Request V) → Exec V r.Answer :=
  performBy recompiledUnit E

theorem tying_current (E : Embedding V) {again again' : (r : Request V) → Exec V r.Answer}
    (hagain : ∀ r, Tied (Host.Beside id Host.Current) (again r) (again' r)) :
    Tying id Host.Current (fun _ => True) E E again again' :=
  .of_memory Host.stable_current.toFirm (fun _ _ hh => hh.of_same rfl rfl rfl) hagain

/-- Every request is answered alike by two ways to get compiled graphs that are tied. -/
theorem tied_performBy {unit unit' : FuncId → Exec V Compiled}
    (hunit : ∀ f, Tied (Host.Beside id Host.Current) (unit f) (unit' f)) (E : Embedding V) (n : Nat)
    (r : Request V) :
    Tied (Host.Beside id Host.Current) (performBy unit E n r) (performBy unit' E n r) := by
  induction n generalizing r with
  | zero => exact .outOfFuel
  | succ n ih =>
    -- the requests on the way have less fuel, and go by the induction
    exact (tying_current E ih).serve hunit Host.stable_current.depth n r.within_all

/-! ## Every moment -/

open Classical in
/-- The run is broken off at its beginning unless the host has the property. -/
noncomputable def Exec.whenever {α : Type} (P : Host V → Prop) (x : Exec V α) : Exec V α :=
  ExceptT.mk fun h => if P h then x h else none

/-- Where the property holds nothing is broken off. -/
theorem tied_whenever {α : Type} {P : Host V → Prop} {x y : Exec V α}
    (hxy : Tied (Host.Beside id P) x y) : Tied (Host.Beside id P) (x.whenever P) y := by
  intro h h' hbeside
  rw [show x.whenever P h = x h from if_pos hbeside.holds]
  exact hxy h h' hbeside

/-- Answers a request within some fuel, and gives no answer as soon as a request comes up, this one
or one on the way, while the host does not have the property. -/
noncomputable def watched (P : Host V → Prop) (E : Embedding V) :
    Nat → (r : Request V) → Exec V r.Answer
  | 0, _ => .outOfFuel
  | n + 1, r => (serve (watched P E n) E n r).whenever P

/-- **What is kept is right whenever anything is asked**, by whomever and however deep in calls. -/
theorem tied_watched (E : Embedding V) (n : Nat) (r : Request V) :
    Tied (Host.Beside id Host.Current) (watched Host.Current E n r) (perform E n r) := by
  induction n generalizing r with
  | zero => exact .outOfFuel
  | succ n ih =>
    have hserve :=
      (tying_current E ih).serve tied_directUnit Host.stable_current.depth n r.within_all
    rw [serveBy_directUnit, serveBy_directUnit] at hserve
    exact tied_whenever hserve

/-- The hosts that come about from new ones by requests, one after another. Between two requests the
memory that natives and transforms share may be changed from outside. -/
inductive Host.Reached (E : Embedding V) : Host V → Prop
  | bare (backend : Backend) (maxDepth : Nat) (memory : V.Memory) :
    Reached E (.bare backend maxDepth memory)
  | create (backend : Backend) (maxDepth : Nat) (memory : V.Memory) :
    Reached E (.create backend maxDepth memory)
  | requested {h h' : Host V} {n : Nat} {r : Request V} {result : Except Fault r.Answer} :
    Reached E h → perform E n r h = some (result, h') → Reached E h'
  | remembered {h : Host V} (memory : V.Memory) : Reached E h → Reached E { h with memory }

theorem Host.Reached.current {E : Embedding V} {h : Host V} (hreached : h.Reached E) :
    h.Current := by
  induction hreached with
  | bare backend maxDepth memory => exact current_bare backend maxDepth memory
  | create backend maxDepth memory => exact current_create backend maxDepth memory
  | requested _ hrun ih =>
    rw [← performBy_directUnit] at hrun
    exact (tied_performBy tied_directUnit E _ _).keeps ih hrun
  | remembered memory _ ih => exact ih.of_same rfl rfl rfl

/-- **Direct calls never run a stale graph.** In every host that comes about by requests, what is
kept for a function is kept for a source function and is what compiling its graph gives now. This is
so whenever a request is answered, also in the middle of calls whose natives define functions anew:
a run that would be broken off otherwise is not. And a host that compiles the graph anew for every
direct call gives the same results. -/
theorem direct_calls_current (E : Embedding V) {h : Host V} (hreached : h.Reached E) :
    h.Current ∧ (∀ n r, watched Host.Current E n r h = perform E n r h)
      ∧ ∀ n r, performAnew E n r h = perform E n r h := by
  have hh := hreached.current
  refine ⟨hh, fun n r => (tied_watched E n r).same hh, fun n r => ?_⟩
  rw [performAnew, (tied_performBy tied_recompiledUnit E n r).same hh, performBy_directUnit]

/-- The native defines `f` anew. -/
def redefining : Embedding ⟨Unit, Unit, Unit⟩ where
  native _ _ := do
    let _ ← Prog.request (.define "b" "fn f() { 2 }")
    return .nothing
  transform _ _ _ := return none

/-- A host where `f` calls the native and gives one, until then. -/
def changing : Host ⟨Unit, Unit, Unit⟩ where
  functions :=
    #[⟨"f", .source ⟨"f", [], [.expr 1 (.call (.name "swap") []), .expr 1 (.lit (.int 1))], 1⟩ "a"⟩,
    ⟨"swap", .native ()⟩]
  hooks := #[]
  globals := ⟨[("f", .func ⟨0⟩), ("swap", .func ⟨1⟩)]⟩
  compiled := .empty
  backend := ⟨true, true, false⟩
  maxDepth := 8
  depth := 0
  serial := 0
  memory := ()

theorem reached_changing : changing.Reached redefining := by
  have hsource := (Host.Reached.bare ⟨true, true, false⟩ 8 ()).requested
    (show perform redefining 1 (.define "a" "fn f() { swap() 1 }") _ = some (.ok [⟨0⟩], _) by cbv)
  exact hsource.requested (show perform redefining 1 (.defineNative "swap" ()) _
    = some (.ok ⟨1⟩, changing) by cbv)

/-- A function that is defined anew while it is called ends as it was, and is then called as it
is. -/
theorem direct_calls_current_changing : ∃ h, changing.Reached redefining
    ∧ perform redefining 8 (.call (.func ⟨0⟩) []) changing = some (.ok (.int 1), h) ∧ h.Current
    ∧ (performAnew redefining 8 (.call (.func ⟨0⟩) []) h).map Prod.fst = some (.ok (.int 2)) := by
  obtain ⟨h, hone, htwo⟩ : ∃ h, perform redefining 8 (.call (.func ⟨0⟩) []) changing
    = some (.ok (.int 1), h)
      ∧ (perform redefining 8 (.call (.func ⟨0⟩) []) h).map Prod.fst = some (.ok (.int 2)) :=
        ⟨_, by cbv, by cbv⟩
  have hcurrent := direct_calls_current redefining (reached_changing.requested hone)
  refine ⟨h, reached_changing, hone, hcurrent.1, ?_⟩
  rw [hcurrent.2.2]
  exact htwo

end Interpose
