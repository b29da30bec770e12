import Interpose.Proofs.Graph.Routing
import Interpose.Proofs.Host.Recording

/-!
# Hosts that programs cannot tell apart

What natives and transforms do is observed by what they ask for. A program runs *alike* in two hosts
if it makes the same requests in both; it may be given compiled graphs of which it must not look at
the number of the compilation, and memories that `M` relates. It is *modest* as regards a hook if it
defines no function and neither looks at what the hook remembers nor makes it forget.

Two hosts are *alike* if modest programs see no difference between them: they have the same
functions, globals and rules, while one of them may be deeper in calls, have compiled other graphs,
and remember other decisions of the one hook. For this hook has a transform, and each of its
decisions is what the transform would make of the function now.
-/

set_option autoImplicit false

namespace Interpose

open Run

variable {V : Vocabulary}

/-! ## Compiled graphs and decisions -/

/-- The compiled graphs are the same but for the number of the compilation. -/
structure Compiled.Like (u u' : Compiled) : Prop where
  graph : u.graph = u'.graph
  hidden : u.hidden = u'.hidden

theorem Compiled.Like.graph? {u u' : Compiled} (h : u.Like u') : u.graph? = u'.graph? := by
  rw [Compiled.graph?, Compiled.graph?, h.graph, h.hidden]

/-- The decisions are the same but for numbers of compilations. -/
inductive Decision.Like : Decision → Decision → Prop
  | unit {u u' : Compiled} : u.Like u' → Like (.unit u) (.unit u')
  | direct : Like .direct .direct

theorem Decision.Like.refl (d : Decision) : d.Like d := by
  cases d with
  | unit u => exact .unit ⟨rfl, rfl⟩
  | direct => exact .direct

/-- The tables have the same keys in the same order, with decisions that are the same but for
numbers of compilations. -/
def LikeDecisions (t t' : Table Signature Decision) : Prop :=
  List.Forall₂ (fun e e' => e.1 = e'.1 ∧ e.2.Like e'.2) t.entries t'.entries

namespace LikeDecisions

variable {t t' : Table Signature Decision}

theorem refl (t : Table Signature Decision) : LikeDecisions t t :=
  List.forall₂_same.2 fun e _ => ⟨rfl, .refl e.2⟩

theorem size (h : LikeDecisions t t') : t.size = t'.size := h.length_eq

theorem get? (h : LikeDecisions t t') (sig : Signature) :
    (t.get? sig = none ∧ t'.get? sig = none) ∨ ∃ d d', t.get? sig = some d ∧ t'.get? sig = some d'
      ∧ d.Like d' := by
  obtain ⟨l⟩ := t
  obtain ⟨l'⟩ := t'
  replace h : List.Forall₂ (fun e e' => e.1 = e'.1 ∧ e.2.Like e'.2) l l' := h
  show (Table.find sig l = none ∧ Table.find sig l' = none)
    ∨ ∃ d d', Table.find sig l = some d ∧ Table.find sig l' = some d' ∧ d.Like d'
  induction h with
  | nil => exact .inl ⟨rfl, rfl⟩
  | @cons e e' l l' he _ ih =>
    obtain ⟨key, d⟩ := e
    obtain ⟨key', d'⟩ := e'
    obtain ⟨rfl, hd⟩ := he
    unfold Table.find
    by_cases hkey : key = sig
    · rw [if_pos hkey, if_pos hkey]
      exact .inr ⟨d, d', rfl, rfl, hd⟩
    · rw [if_neg hkey, if_neg hkey]
      exact ih

theorem contains (h : LikeDecisions t t') (sig : Signature) : t.contains sig = t'.contains sig := by
  rcases h.get? sig with ⟨hd, hd'⟩ | ⟨d, d', hd, hd', -⟩
  · rw [Table.contains, Table.contains, hd, hd']
  · rw [Table.contains, Table.contains, hd, hd']
    rfl

theorem insert (h : LikeDecisions t t') (sig : Signature) {d d' : Decision} (hd : d.Like d') :
    LikeDecisions (t.insert sig d) (t'.insert sig d') := by
  obtain ⟨l⟩ := t
  obtain ⟨l'⟩ := t'
  replace h : List.Forall₂ (fun e e' => e.1 = e'.1 ∧ e.2.Like e'.2) l l' := h
  show List.Forall₂ _ (Table.put sig d l) (Table.put sig d' l')
  induction h with
  | nil => exact .cons ⟨rfl, hd⟩ .nil
  | @cons e e' l l' he hrest ih =>
    obtain ⟨key, c⟩ := e
    obtain ⟨key', c'⟩ := e'
    obtain ⟨rfl, hc⟩ := he
    unfold Table.put
    by_cases hkey : key = sig
    · rw [if_pos hkey, if_pos hkey]
      exact .cons ⟨rfl, hd⟩ hrest
    · rw [if_neg hkey, if_neg hkey]
      exact .cons ⟨rfl, hc⟩ ih

theorem erase (h : LikeDecisions t t') (sig : Signature) :
    LikeDecisions (t.erase sig) (t'.erase sig) := by
  obtain ⟨l⟩ := t
  obtain ⟨l'⟩ := t'
  replace h : List.Forall₂ (fun e e' => e.1 = e'.1 ∧ e.2.Like e'.2) l l' := h
  show List.Forall₂ _ (l.filter _) (l'.filter _)
  induction h with
  | nil => exact .nil
  | @cons e e' l l' he _ ih =>
    obtain ⟨key, c⟩ := e
    obtain ⟨key', c'⟩ := e'
    obtain ⟨rfl, hc⟩ := he
    by_cases hkey : key = sig
    · rw [List.filter_cons_of_neg (by simpa using hkey),
        List.filter_cons_of_neg (by simpa using hkey)]
      exact ih
    · rw [List.filter_cons_of_pos (by simpa using hkey),
        List.filter_cons_of_pos (by simpa using hkey)]
      exact .cons ⟨rfl, hc⟩ ih

end LikeDecisions

/-- The hooks have the same rules and remember the same, but for numbers of compilations. -/
structure Hook.Like (hook hook' : Hook V) : Prop where
  plan : hook.toHookPlan = hook'.toHookPlan
  decisions : LikeDecisions hook.decisions hook'.decisions

theorem Hook.Like.refl (hook : Hook V) : hook.Like hook := ⟨rfl, .refl _⟩

/-! ## Programs -/

/-- The request defines no function, and neither looks at what the hook remembers nor makes it
forget. -/
def Request.Modest (k : HookId) : Request V → Prop
  | .define _ _ | .defineNative _ _ | .installPrelude => False
  | .hook k' => k' ≠ k
  | .refresh k' _ => k' ≠ k
  | _ => True

/-- The answers are the same but for numbers of compilations. -/
def Request.Like : (r : Request V) → r.Answer → r.Answer → Prop
  | .resolve _ | .funcId _ | .funcName _ | .define _ _ | .defineNative _ _ | .installPrelude
  | .setGlobal _ _ | .registerHook _ | .refresh _ _ | .provenance _ | .graphOf _ | .invoke _ _
  | .call _ _ | .hookCall _ _ | .hookGraph _ _ => Eq
  | .compile _ => Compiled.Like
  | .hook _ => Hook.Like

/-- The programs are modest and run alike from memories that `M` relates, whatever compilations the
graphs are the results of that they get. They do not write that a call was refused. -/
inductive Prog.Alike (M : V.Memory → V.Memory → Prop) (k : HookId) {α : Type} :
    Prog V.recorded α → Prog V.recorded α → Prop
  | done (a : α) : Alike M k (.done a) (.done a)
  | fail (e : Fault) : Alike M k (.fail e) (.fail e)
  | read {next next' : V.recorded.Memory → Prog V.recorded α} :
    (∀ m m' record, M m m' → record.refused = false →
      Alike M k (next (m, record)) (next' (m', record))) →
    Alike M k (.read next) (.read next')
  | write {m m' : V.Memory} {record : Record} {next next' : Prog V.recorded α} :
    M m m' → record.refused = false → Alike M k next next' →
    Alike M k (.write (m, record) next) (.write (m', record) next')
  | ask {r : Request V.recorded} {next next' : Except Fault r.Answer → Prog V.recorded α} :
    r.Modest k → (∀ a a', Fits r.Like a a' → Alike M k (next a) (next' a')) →
    Alike M k (.ask r next) (.ask r next')
  | invoke {u u' : Compiled} {args : List Value} {next next' : Except Fault Value →
    Prog V.recorded α} :
    u.Like u' → (∀ a, Alike M k (next a) (next' a)) →
    Alike M k (.ask (.invoke u args) next) (.ask (.invoke u' args) next')

/-- The natives and transforms are modest, and do not depend on which compilations graphs are the
results of. -/
structure Embedding.Modest (E : Embedding V.recorded) (M : V.Memory → V.Memory → Prop)
    (k : HookId) : Prop where
  native : ∀ n args, (E.native n args).Alike M k (E.native n args)
  transform : ∀ t o g, (E.transform t o g).Alike M k (E.transform t o g)

/-! ## Hosts -/

namespace Host

/-- What is kept for functions that were called directly are their graphs, compiled. -/
def Kept (h : Host V) : Prop :=
  ∀ f u, h.compiled.get? f = some u → ∃ g, h.graphOf f = .ok g ∧ h.backend.prepare g = .ok u.graph

/-- The decision for a signature is what `image` makes of the function's graph, or to call directly
what has no graph. -/
def Decides (h : Host V) (image : Signature → Graph → Graph) (sig : Signature) (d : Decision) :
    Prop :=
  match h.provenance sig with
  | .error _ => d = .direct
  | .ok p =>
    ∃ g u, lower p = .ok g ∧ d = .unit u ∧ u.graph = image sig g ∧ u.hidden = h.backend.hides

/-- The hook leaves all calls to one transform, and what it remembers is what `image` makes of the
functions. -/
def Remembers (h : Host V) (k : HookId) (t : V.Transform) (image : Signature → Graph → Graph) :
    Prop :=
  ∃ hook, h.hook? k = some hook ∧ hook.rules = [⟨.any, .transform t⟩]
    ∧ ∀ sig d, hook.decisions.get? sig = some d → h.Decides image sig d

/-- What a call finds is what it would get anew. -/
structure Settled (h : Host V) (k : HookId) (t : V.Transform) (image : Signature → Graph → Graph) :
    Prop where
  kept : h.Kept
  remembers : h.Remembers k t image

/-- The second host has compiled more than the first, or remembers more of what the hook decided. -/
structure Grown (h h' : Host V) (k : HookId) (t : V.Transform) (image : Signature → Graph → Graph) :
    Prop where
  functions : h'.functions = h.functions
  globals : h'.globals = h.globals
  backend : h'.backend = h.backend
  maxDepth : h'.maxDepth = h.maxDepth
  depth : h'.depth = h.depth
  memory : h'.memory = h.memory
  size : h'.hooks.size = h.hooks.size
  others : ∀ k', k' ≠ k → h'.hook? k' = h.hook? k'
  plan : (h'.hook? k).map Hook.toHookPlan = (h.hook? k).map Hook.toHookPlan
  settled : h'.Settled k t image

end Host

/-- A hook that leaves all calls to one transform, as it is seen by programs that cannot tell
memories apart which `same` relates. -/
structure Interception (V : Vocabulary) where
  hook : HookId
  transform : V.Transform
  /-- What the transform makes of a graph. -/
  image : Signature → Graph → Graph
  same : V.Memory → V.Memory → Prop
  /-- How many calls may be in progress. -/
  limit : Nat

/-- Two hosts that modest programs cannot tell apart. The first has `a` calls in progress, the
second `b`. -/
structure Host.Alike (c : Interception V) (a b : Nat) (h h' : Host V.recorded) : Prop where
  functions : h.functions = h'.functions
  globals : h.globals = h'.globals
  backend : h.backend = h'.backend
  maxDepth : h.maxDepth = c.limit
  maxDepth' : h'.maxDepth = c.limit
  depth : h.depth = a
  depth' : h'.depth = b
  memory : c.same h.memory.1 h'.memory.1
  record : h.memory.2 = h'.memory.2
  unrefused : h.memory.2.refused = false
  size : h.hooks.size = h'.hooks.size
  plan : (h.hook? c.hook).map Hook.toHookPlan = (h'.hook? c.hook).map Hook.toHookPlan
  others : ∀ k, k ≠ c.hook → (h.hook? k = none ∧ h'.hook? k = none)
    ∨ ∃ hook hook', h.hook? k = some hook ∧ h'.hook? k = some hook' ∧ hook.Like hook'
  settled : h.Settled c.hook c.transform c.image
  settled' : h'.Settled c.hook c.transform c.image

namespace Host

/-! ## What is looked up -/

section Lookup

variable {h h' : Host V}

theorem function?_congr (hfunctions : h.functions = h'.functions) (f : FuncId) :
    h.function? f = h'.function? f := by
  rw [function?, function?, hfunctions]

theorem provenance_congr (hfunctions : h.functions = h'.functions) (sig : Signature) :
    h.provenance sig = h'.provenance sig := by
  unfold provenance
  simp only [function?_congr hfunctions]

/-- The graph of a function depends on this function only. -/
theorem graphOf_congr_at {f : FuncId} (hfunction : h.function? f = h'.function? f) :
    h.graphOf f = h'.graphOf f := by
  by_cases hsource : h.IsSource f
  · obtain ⟨name, d, file, hget⟩ := hsource
    rw [graphOf_eq_lower hget, graphOf_eq_lower (hfunction ▸ hget)]
  · have hnone : ∀ {g : Host V}, ¬g.IsSource f → g.graphOf f = .error (.noGraph ⟨[.func f]⟩) := by
      intro g hg
      unfold graphOf
      split
      · next name d file hget => exact absurd ⟨name, d, file, hget⟩ hg
      · rfl
    have hsource' : ¬h'.IsSource f := by
      rw [IsSource, ← hfunction]
      exact hsource
    rw [hnone hsource, hnone hsource']

theorem graphOf_congr (hfunctions : h.functions = h'.functions) (f : FuncId) :
    h.graphOf f = h'.graphOf f :=
  graphOf_congr_at (function?_congr hfunctions f)

theorem Decides.congr {image : Signature → Graph → Graph} {sig : Signature} {d : Decision}
    (hd : h.Decides image sig d) (hfunctions : h.functions = h'.functions)
    (hbackend : h.backend = h'.backend) : h'.Decides image sig d := by
  unfold Decides at hd ⊢
  rw [← provenance_congr hfunctions, ← hbackend]
  exact hd

/-- What is decided for a signature is the same but for the number of the compilation. -/
theorem Decides.like {image : Signature → Graph → Graph} {sig : Signature} {d d' : Decision}
    (hd : h.Decides image sig d) (hd' : h.Decides image sig d') : d.Like d' := by
  unfold Decides at hd hd'
  rcases hp : h.provenance sig with e | p
  all_goals rw [hp] at hd hd'
  · obtain rfl : d = .direct := hd
    obtain rfl : d' = .direct := hd'
    exact .direct
  · obtain ⟨g, u, hg, rfl, hgraph, hhidden⟩ := hd
    obtain ⟨g', u', hg', rfl, hgraph', hhidden'⟩ := hd'
    obtain rfl := Except.ok.inj (hg.symm.trans hg')
    exact .unit ⟨hgraph.trans hgraph'.symm, hhidden.trans hhidden'.symm⟩

variable {k : HookId} {t : V.Transform} {image : Signature → Graph → Graph}

theorem Settled.congr (hs : h.Settled k t image) (hfunctions : h.functions = h'.functions)
    (hbackend : h.backend = h'.backend) (hcompiled : h.compiled = h'.compiled)
    (hhook : h'.hook? k = h.hook? k) : h'.Settled k t image where
  kept f u hu := by
    obtain ⟨g, hg, hprepare⟩ := hs.kept f u (hcompiled ▸ hu)
    exact ⟨g, (graphOf_congr hfunctions f) ▸ hg, hbackend ▸ hprepare⟩
  remembers := by
    obtain ⟨hook, hget, hrules, hdecisions⟩ := hs.remembers
    exact ⟨hook, hhook.trans hget, hrules,
      fun sig d hd => (hdecisions sig d hd).congr hfunctions hbackend⟩

theorem hook?_modifyDecisions (h : Host V) (k k' : HookId)
    (f : Table Signature Decision → Table Signature Decision) :
    (h.modifyDecisions k f).hook? k' = if k = k' then
      (h.hook? k').map fun hook => { hook with decisions := f hook.decisions } else h.hook? k' := by
  have hget : (h.modifyDecisions k f).hook? k' = if k.index = k'.index then
      (h.hook? k').map fun hook => { hook with decisions := f hook.decisions } else h.hook? k' :=
    Array.getElem?_modify ..
  rw [hget]
  by_cases hk : k = k'
  · rw [if_pos hk, if_pos (congrArg HookId.index hk)]
  · have hindex : k.index ≠ k'.index :=
      fun hi => hk (by cases k; cases k'; exact congrArg HookId.mk hi)
    rw [if_neg hk, if_neg hindex]

end Lookup

/-! ## Alike hosts -/

namespace Alike

variable {c : Interception V} {a b : Nat} {h h' g : Host V.recorded}

theorem left (hh : h.Alike c a b h') (hg : h.Grown g c.hook c.transform c.image) :
    g.Alike c a b h' where
  functions := hg.functions.trans hh.functions
  globals := hg.globals.trans hh.globals
  backend := hg.backend.trans hh.backend
  maxDepth := hg.maxDepth.trans hh.maxDepth
  maxDepth' := hh.maxDepth'
  depth := hg.depth.trans hh.depth
  depth' := hh.depth'
  memory := hg.memory ▸ hh.memory
  record := hg.memory ▸ hh.record
  unrefused := hg.memory ▸ hh.unrefused
  size := hg.size.trans hh.size
  plan := hg.plan.trans hh.plan
  others k hk := (hg.others k hk).symm ▸ hh.others k hk
  settled := hg.settled
  settled' := hh.settled'

theorem right (hh : h.Alike c a b h') (hg : h'.Grown g c.hook c.transform c.image) :
    h.Alike c a b g where
  functions := hh.functions.trans hg.functions.symm
  globals := hh.globals.trans hg.globals.symm
  backend := hh.backend.trans hg.backend.symm
  maxDepth := hh.maxDepth
  maxDepth' := hg.maxDepth.trans hh.maxDepth'
  depth := hh.depth
  depth' := hg.depth.trans hh.depth'
  memory := hg.memory ▸ hh.memory
  record := hg.memory ▸ hh.record
  unrefused := hh.unrefused
  size := hh.size.trans hg.size.symm
  plan := hh.plan.trans hg.plan.symm
  others k hk := (hg.others k hk).symm ▸ hh.others k hk
  settled := hh.settled
  settled' := hg.settled

/-- A hook is there in both hosts, with the same rules, or in neither. -/
theorem hook? (hh : h.Alike c a b h') (k : HookId) : (h.hook? k = none ∧ h'.hook? k = none)
    ∨ ∃ hook hook', h.hook? k = some hook ∧ h'.hook? k = some hook'
      ∧ hook.toHookPlan = hook'.toHookPlan
      ∧ (k ≠ c.hook → hook.Like hook') := by
  by_cases hk : k = c.hook
  · subst hk
    obtain ⟨hook, hget, -⟩ := hh.settled.remembers
    obtain ⟨hook', hget', -⟩ := hh.settled'.remembers
    have hplan := hh.plan
    rw [hget, hget'] at hplan
    exact .inr ⟨hook, hook', hget, hget', Option.some.inj hplan, fun hne => absurd rfl hne⟩
  · rcases hh.others k hk with hnone | ⟨hook, hook', hget, hget', hlike⟩
    · exact .inl hnone
    · exact .inr ⟨hook, hook', hget, hget', hlike.plan, fun _ => hlike⟩

/-- The first host with one more call in progress. -/
theorem enterLeft (hh : h.Alike c a b h') : Alike c (a + 1) b { h with depth := h.depth + 1 } h' :=
  { hh with depth := congrArg (· + 1) hh.depth, settled := hh.settled.congr rfl rfl rfl rfl }

/-- The second host with one more call in progress. -/
theorem enterRight (hh : h.Alike c a b h') :
    Alike c a (b + 1) h { h' with depth := h'.depth + 1 } :=
  { hh with depth' := congrArg (· + 1) hh.depth', settled' := hh.settled'.congr rfl rfl rfl rfl }

/-- What another hook remembers may change alike in both hosts. -/
theorem modifyDecisions (hh : h.Alike c a b h') {k : HookId} (hk : k ≠ c.hook)
    {f f' : Table Signature Decision → Table Signature Decision}
    (hf : ∀ t t', LikeDecisions t t' → LikeDecisions (f t) (f' t')) :
    (h.modifyDecisions k f).Alike c a b (h'.modifyDecisions k f') := by
  have hself : ∀ (h : Host V.recorded) f, (h.modifyDecisions k f).hook? c.hook
      = h.hook? c.hook := fun h f => by
    rw [hook?_modifyDecisions, if_neg hk]
  refine { hh with
    size := ?_, plan := ?_, others := fun k' hk' => ?_, settled := ?_, settled' := ?_ }
  · exact (Array.size_modify ..).trans (hh.size.trans (Array.size_modify ..).symm)
  · rw [hself, hself]
    exact hh.plan
  · rw [hook?_modifyDecisions, hook?_modifyDecisions]
    rcases hh.others k' hk' with ⟨hget, hget'⟩ | ⟨hook, hook', hget, hget', hlike⟩
    · rw [hget, hget']
      exact .inl ⟨ite_self _, ite_self _⟩
    · rw [hget, hget']
      by_cases hkk : k = k'
      · rw [if_pos hkk, if_pos hkk]
        exact .inr ⟨_, _, rfl, rfl, hlike.plan, hf _ _ hlike.decisions⟩
      · rw [if_neg hkk, if_neg hkk]
        exact .inr ⟨hook, hook', rfl, rfl, hlike⟩
  · exact hh.settled.congr rfl rfl rfl (hself h f)
  · exact hh.settled'.congr rfl rfl rfl (hself h' f')

end Alike

end Host

end Interpose
