import Mathlib
import Interpose.Proofs.Host.Following

/-!
# What a hook remembers is a memo table

The history of a hook is what is noted of it while some program runs: the times it needed its
transform, and what it was made to forget. A history is *quiet* if no transform has the hook called,
inspected or refreshed. Then a build is over before anything else is noted, and every note that the
hook was asked stands for one step of a memo table: the decision is found, or it is made and
remembered. Nothing else changes the table, whatever functions are defined anew.

Two things are put together at the end. What the notes say is what the table goes through, for every
program. And at every moment a call, an inspection or a refresh is answered by the table of that
moment.
-/

set_option autoImplicit false

namespace Interpose

open Run

variable {V : Vocabulary} {α : Type}

/-! ## Steps of a memo table -/

/-- What is noted after a transform has begun is that it has ended. -/
def Quiet : List HookNote → Prop
  | [] => True
  | .began sig :: notes => (∃ outcome, notes.head? = some (.ended sig outcome)) ∧ Quiet notes
  | _ :: notes => Quiet notes

/-- A step of the memo table and what is noted of it. -/
inductive MemoStep (plan : HookPlan V) (backend : Backend) :
    Table Signature Decision → List HookNote → Table Signature Decision → Prop
  /-- A decision is found where there is one. -/
  | hit {t : Table Signature Decision} {sig : Signature} {d : Decision} {g : Bool} :
    plan.Transforms sig →
    t.get? sig = some d → MemoStep plan backend t [.asked sig (some d) g] t
  /-- Without a graph no transform runs, and it is remembered that the callee is to be called as it
  is. -/
  | direct {t : Table Signature Decision} {sig : Signature} :
    plan.Transforms sig → t.get? sig = none →
    MemoStep plan backend t [.asked sig none false] (t.insert sig .direct)
  /-- With a graph the transform runs once. What it comes to is remembered, unless it is a fault. -/
  | build {t : Table Signature Decision} {sig : Signature} {outcome : Except Fault (Option Graph)}
      {r : Except Fault Decision} : plan.Transforms sig → t.get? sig = none →
      Settles backend outcome r →
    MemoStep plan backend t [.asked sig none true, .began sig, .ended sig outcome] (t.settle sig r)
  | forget {t : Table Signature Decision} (sig : Signature) :
    MemoStep plan backend t [.forgot (some sig)] (t.erase sig)
  | forgetAll {t : Table Signature Decision} : MemoStep plan backend t [.forgot none] .empty

/-- Steps of the memo table one after another. -/
inductive MemoRun (plan : HookPlan V) (backend : Backend) :
    Table Signature Decision → List HookNote → Table Signature Decision → Prop
  | nil (t : Table Signature Decision) : MemoRun plan backend t [] t
  | step {t t' t'' : Table Signature Decision} {notes notes' : List HookNote} :
    MemoStep plan backend t notes t' → MemoRun plan backend t' notes' t'' →
    MemoRun plan backend t (notes ++ notes') t''

section Progress

variable {plan : HookPlan V} {backend : Backend} {t t' : Table Signature Decision}
  {notes : List HookNote}

/-- **A quiet history is a run of the memo table.** The induction is on the length, for a build
takes three notes. -/
theorem MemoRun.of_steps (hsteps : Progress.Steps plan backend ⟨t, [], none⟩ notes ⟨t', [], none⟩)
    (hquiet : Quiet notes) : MemoRun plan backend t notes t' := by
  induction hn : notes.length using Nat.strongRecOn generalizing notes t with
  | ind n ih =>
    subst hn
    cases hsteps with
    | nil => exact .nil _
    | cons hstep hrest =>
      cases hstep with
      | found htransforms hfound =>
        exact .step (.hit htransforms hfound) (ih _ (Nat.lt_succ_self _) hrest hquiet rfl)
      | direct htransforms hnone =>
        exact .step (.direct htransforms hnone) (ih _ (Nat.lt_succ_self _) hrest hquiet rfl)
      | forgot sig => exact .step (.forget sig) (ih _ (Nat.lt_succ_self _) hrest hquiet rfl)
      | forgotAll => exact .step .forgetAll (ih _ (Nat.lt_succ_self _) hrest hquiet rfl)
      | due htransforms hnone =>
        -- the build begins at once, and since the history is quiet it ends with the next note
        cases hrest with
        | cons hbegan hrest =>
          cases hbegan with
          | began =>
            obtain ⟨⟨outcome, hhead⟩, hquiet⟩ := hquiet
            cases hrest with
            | cons hended hrest =>
              cases hhead
              cases hended with
              | ended hsettles =>
                have hshorter : ∀ notes : List HookNote,
                    notes.length < notes.length + 1 + 1 + 1 := by omega
                exact .step (.build htransforms hnone hsettles) (ih _ (hshorter _) hrest hquiet rfl)

/-- A signature that no transform is for is never remembered. -/
theorem Progress.Step.untransformed {s s' : Progress} {note : HookNote}
    (hstep : Step plan backend s note s') {sig : Signature} (hnative : ¬ plan.Transforms sig)
    (hs : s.table.get? sig = none ∧ sig ∉ s.building ∧ s.due ≠ some sig) :
    s'.table.get? sig = none ∧ sig ∉ s'.building ∧ s'.due ≠ some sig := by
  obtain ⟨hget, hbuilding, hdue⟩ := hs
  cases hstep with
  | found _ _ => exact ⟨hget, hbuilding, hdue⟩
  | @direct _ _ sig' htransforms _ =>
    have hne : sig' ≠ sig := fun heq => hnative (heq ▸ htransforms)
    exact ⟨by rw [Table.get?_insert, if_neg hne, hget], hbuilding, hdue⟩
  | @due _ _ sig' htransforms _ =>
    exact ⟨hget, hbuilding, fun heq => hnative (Option.some.inj heq ▸ htransforms)⟩
  | began =>
    refine ⟨hget, fun hmem => ?_, by simp⟩
    rcases List.mem_cons.1 hmem with rfl | hmem
    · exact hdue rfl
    · exact hbuilding hmem
  -- a build that ends is one that was under way, and so for another signature
  | @ended _ _ sig' _ r _ =>
    have hne : sig' ≠ sig := fun heq => hbuilding (heq ▸ List.mem_cons_self)
    refine ⟨?_, fun hmem => hbuilding (List.mem_cons_of_mem _ hmem), hdue⟩
    cases r with
    | error e => exact hget
    | ok d => exact (Table.get?_insert ..).trans ((if_neg hne).trans hget)
  | forgot sig' =>
    refine ⟨?_, hbuilding, hdue⟩
    rw [Table.get?_erase]
    split
    · rfl
    · exact hget
  | forgotAll => exact ⟨Table.get?_empty sig, hbuilding, hdue⟩

theorem Progress.Steps.untransformed {s s' : Progress} (hsteps : Steps plan backend s notes s')
    {sig : Signature} (hnative : ¬ plan.Transforms sig)
    (hs : s.table.get? sig = none ∧ sig ∉ s.building ∧ s.due ≠ some sig) :
    s'.table.get? sig = none ∧ sig ∉ s'.building ∧ s'.due ≠ some sig := by
  induction hsteps with
  | nil => exact hs
  | cons hstep _ ih => exact ih (hstep.untransformed hnative hs)

end Progress

/-! ## Answers at one moment -/

/-- At this moment the hook is asked, and forgets, as a memo table does. -/
structure Memoizes (again : (r : Request V) → Exec V r.Answer) (E : Embedding V) (h : Host V)
    (k : HookId) (hook : Hook V) : Prop where
  /-- A call for which something is remembered goes by it. -/
  call_hit : ∀ n callee rest tr d, hook.handler (.ofValues (callee :: rest)) = .ok (.transform tr) →
    hook.decisions.get? (.ofValues (callee :: rest)) = some d →
    callHook again E n k (callee :: rest) h = d.follow again n callee rest h
  /-- Another call builds. It goes by what is built, which is remembered first, and a fault is its
  own. -/
  call_miss : ∀ n callee rest tr, hook.handler (.ofValues (callee :: rest)) = .ok (.transform tr) →
    hook.decisions.get? (.ofValues (callee :: rest)) = none →
    callHook again E n k (callee :: rest) h
      = match buildDecision again E k (.ofValues (callee :: rest)) tr h with
        | none => none
        | some (.error e, h') => some (.error e, h')
        | some (.ok d, h') =>
          d.follow again n callee rest (h'.remember k (.ofValues (callee :: rest)) d)
  /-- An inspection for which something is remembered gives out its graph. -/
  graph_hit : ∀ sig tr d, hook.handler sig = .ok (.transform tr) →
    hook.decisions.get? sig = some d →
    hookGraph again E k sig h = some (.ok d.graph?, h)
  /-- Another inspection builds. It gives out what is built, which is remembered, and a fault is its
  own. -/
  graph_miss : ∀ sig tr, hook.handler sig = .ok (.transform tr) → hook.decisions.get? sig = none →
    hookGraph again E k sig h = match buildDecision again E k sig tr h with
      | none => none
      | some (.error e, h') => some (.error e, h')
      | some (.ok d, h') => some (.ok d.graph?, h'.remember k sig d)
  /-- Without a graph a build runs no transform. -/
  build_direct : ∀ sig tr e, h.provenance sig = .error e →
    buildDecision again E k sig tr h = some (.ok .direct, h)
  /-- With a graph it runs the transform once, and compiles what that makes of the graph. -/
  build : ∀ sig tr p, h.provenance sig = .ok p → ∃ g, lower p = .ok g
    ∧ buildDecision again E k sig tr h
      = match (E.transform tr ⟨k, sig⟩ g).exec again h with
      | none => none
      | some (.error e, h') => some (.error e, h')
      | some (.ok none, h') => some (.ok .direct, h')
      | some (.ok (some g'), h') => match h'.compile g' with
        | .error e => some (.error e, h')
        | .ok (h'', u) => some (.ok (.unit u), h'')
  /-- A native runs in place of the call. -/
  call_native : ∀ n callee rest native,
    hook.handler (.ofValues (callee :: rest)) = .ok (.native native) →
    callHook again E n k (callee :: rest) h = (E.native native (callee :: rest)).exec again h
  /-- Where a native runs there is no graph. -/
  graph_native : ∀ sig native, hook.handler sig = .ok (.native native) →
    hookGraph again E k sig h = some (.ok none, h)
  /-- One signature is forgotten, and the answer is whether it was remembered. -/
  forget : ∀ sig, h.refresh k (some sig)
    = .ok (h.modifyDecisions k (·.erase sig), hook.decisions.contains sig)
  /-- All signatures are forgotten. -/
  forget_all : h.refresh k none = .ok (h.modifyDecisions k fun _ => .empty, 0 < hook.decisions.size)

theorem Memoizes.of_hook (again : (r : Request V) → Exec V r.Answer) (E : Embedding V) {h : Host V}
    {k : HookId} {hook : Hook V} (hhook : h.hook? k = some hook) : Memoizes again E h k hook where
  call_hit n _ _ _ _ hhandler hd := callHook_hit hhook hhandler hd n
  call_miss n _ _ _ hhandler hnone := callHook_miss hhook hhandler hnone n
  graph_hit _ _ _ hhandler hd := hookGraph_hit hhook hhandler hd
  graph_miss _ _ hhandler hnone := hookGraph_miss hhook hhandler hnone
  build_direct _ _ _ hp := buildDecision_of_error hp
  build sig tr p hp := by
    obtain ⟨g, hg, -⟩ := exists_lower p
    exact ⟨g, hg, buildDecision_of_ok hp hg⟩
  call_native n _ _ _ hhandler := callHook_native hhook hhandler n
  graph_native _ _ hhandler := hookGraph_native hhook hhandler
  forget sig := by
    rw [Host.refresh, Host.hook_of_hook? hhook]
    rfl
  forget_all := by
    rw [Host.refresh, Host.hook_of_hook? hhook]
    rfl

/-! ## Whole histories -/

/-- **What a hook remembers is a memo table.** Whatever a program asks for, what becomes of the
table is what the notes say: if no transform had the hook called, inspected or refreshed, each time
the hook needed its transform a decision was found, or made by one build and remembered, and nothing
else but a refresh changed the table. Signatures for which the hook has a native are never
remembered. The notes do not change what the program gives. And at every moment calls, inspections
and refreshes are answered by the table. -/
theorem hook_memoizes (E : Embedding V.noted) {k : HookId} {h : Host V.noted}
    {plan : HookPlan V.noted} {t : Table Signature Decision} (hhook : h.hook? k = some ⟨plan, t⟩) :
    (∀ n (α : Type) (p : Prog V.noted α) result h',
      p.sealed.exec (noted E k n) h = some (result, h') →
      p.sealed.exec (perform E.sealed n) (h.mapMemory unnoted) = some (result, h'.mapMemory unnoted)
      ∧ ∃ notes t', h'.hook? k = some ⟨plan, t'⟩ ∧ h'.memory.2 = h.memory.2 ++ notes
        ∧ (Quiet notes → MemoRun plan h.backend t notes t')
        ∧ ∀ sig, ¬ plan.Transforms sig → t.get? sig = none → t'.get? sig = none)
    ∧ ∀ again E', Memoizes again E' h k ⟨plan, t⟩ := by
  refine ⟨fun n α p result h' hrun => ?_, fun again E' => .of_hook again E' hhook⟩
  obtain ⟨herased, notes, t', hhook', hlog, hsteps⟩ := history_exec E n p hhook hrun
  refine ⟨herased, notes, t', hhook', hlog, .of_steps hsteps, fun sig hnative hnone => ?_⟩
  exact (hsteps.untransformed hnative ⟨hnone, by simp, by simp⟩).1

/-- One word for natives, one for transforms, and nothing to remember. -/
abbrev sparse : Vocabulary := ⟨Unit, Unit, Unit⟩

/-- A hook for all calls. -/
def interceptingAll (tr : V.Transform) : HookPlan V := ⟨"h", [⟨.any, .transform tr⟩]⟩

/-- A host with this hook, and with a function `f` that gives one. -/
def hooked (tr : V.Transform) (t : Table Signature Decision) (memory : V.Memory) : Host V where
  functions := #[⟨"f", .source ⟨"f", [], [.expr 1 (.lit (.int 1))], 1⟩ "a"⟩]
  hooks := #[⟨interceptingAll tr, t⟩]
  globals := ⟨[("f", .func ⟨0⟩), ("h", .hook ⟨0⟩)]⟩
  compiled := .empty
  backend := ⟨true, true, false⟩
  maxDepth := 8
  depth := 0
  serial := t.size
  memory

/-- The transform leaves every graph as it is. -/
def leaving : Embedding sparse.noted where
  native _ _ := return .nothing
  transform _ _ g := return some g

/-- Calls `f` through the hook, defines it anew, calls it again, has the hook forget it, and calls
it once more. -/
def recalling : Prog sparse.noted (List Value) := do
  let first : Value ← Prog.request (.hookCall ⟨0⟩ [.func ⟨0⟩])
  let _ ← Prog.request (.define "b" "fn f() { 2 }")
  let second : Value ← Prog.request (.hookCall ⟨0⟩ [.func ⟨0⟩])
  let _ ← Prog.request (.refresh ⟨0⟩ (some (.ofValues [.func ⟨0⟩])))
  let third : Value ← Prog.request (.hookCall ⟨0⟩ [.func ⟨0⟩])
  return [first, second, third]

/-- The function that is defined anew is called as it was until the hook forgets it. -/
theorem hook_memoizes_recalling : ∃ h' t',
    recalling.sealed.exec (noted leaving ⟨0⟩ 8) (hooked () .empty ((), []))
        = some (.ok [.int 1, .int 1, .int 2], h')
      ∧ h'.hook? ⟨0⟩ = some ⟨interceptingAll (V := sparse.noted) (), t'⟩
      ∧ MemoRun (interceptingAll (V := sparse.noted) ())
        ⟨true, true, false⟩ .empty h'.memory.2 t' := by
  obtain ⟨h', hrun, hquiet⟩ : ∃ h', recalling.sealed.exec (noted leaving ⟨0⟩ 8)
    (hooked () .empty ((), []))
      = some (.ok [.int 1, .int 1, .int 2], h') ∧ Quiet h'.memory.2 := by
    refine ⟨_, by cbv, ?_⟩
    exact ⟨⟨_, rfl⟩, ⟨_, rfl⟩, trivial⟩
  obtain ⟨-, notes, t', hhook', hlog, hmemo, -⟩ :=
    (hook_memoizes leaving rfl).1 8 _ recalling _ h' hrun
  refine ⟨h', t', hrun, hhook', ?_⟩
  rw [hlog] at hquiet ⊢
  exact hmemo hquiet

end Interpose
