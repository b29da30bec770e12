import Interpose.Proofs.Host.Memo

/-!
# How long a decision lasts

Transforms may do what they like here: call the hook, have it inspected or refreshed, define
functions. Between any two notes of a history there is a moment, and what is remembered for a
signature at that moment stays until somebody has it forgotten, or until a build of the signature
ends that was under way at that moment already. Until then no build of it begins, and whoever asks
the hook about it goes by that one decision. So calls that go by a compiled graph go by the same
compilation.

Builds of one signature within one another are the exception, and it is a real one. A transform that
calls its own hook, for the call that it is made for, has a build end within its own. What that
build has had remembered is what the transform finds, and it is replaced when the transform ends.
Nobody has it forgotten in between.
-/

set_option autoImplicit false

namespace Interpose

open Run

variable {V : Vocabulary}

/-! ## Moments -/

/-- The note says that the signature is to be forgotten. -/
def HookNote.Forgets (sig : Signature) (note : HookNote) : Prop :=
  note = .forgot (some sig) ∨ note = .forgot none

namespace Progress

variable {plan : HookPlan V} {backend : Backend} {s s' : Progress} {notes : List HookNote}
  {sig : Signature} {d : Decision}

/-- Nothing is remembered for a signature whose build has to begin at once. -/
def Ready (s : Progress) : Prop := ∀ sig, s.due = some sig → s.table.get? sig = none

theorem Step.ready {note : HookNote} (hstep : Step plan backend s note s') : s'.Ready := by
  intro sig hdue
  cases hstep with
  | due _ hnone =>
    cases hdue
    exact hnone
  | _ => cases hdue

theorem Steps.ready (hsteps : Steps plan backend s notes s') (hs : s.Ready) : s'.Ready := by
  induction hsteps with
  | nil => exact hs
  | cons hstep _ ih => exact ih hstep.ready

/-- **What is remembered stays** over a note that neither has it forgotten nor ends a build of it.
If the note asks for the signature, it has found what is remembered, and it does not begin a build
of it. -/
theorem Step.lasts {note : HookNote} (hstep : Step plan backend s note s') (hs : s.Ready)
    (hd : s.table.get? sig = some d) (hforgets : ¬ note.Forgets sig)
    (hends : ∀ outcome, note ≠ .ended sig outcome) :
    s'.table.get? sig = some d ∧ (∀ found g, note = .asked sig found g → found = some d)
      ∧ note ≠ .began sig := by
  cases hstep with
  | found _ hfound =>
    refine ⟨hd, fun found g heq => ?_, by simp⟩
    cases heq
    exact hfound.symm.trans hd
  | @direct _ _ sig' _ hnone =>
    have hne : sig' ≠ sig := by
      rintro rfl
      cases hnone.symm.trans hd
    refine ⟨by rw [Table.get?_insert, if_neg hne, hd], fun found g heq => ?_, by simp⟩
    cases heq
    exact absurd rfl hne
  | @due _ _ sig' _ hnone =>
    refine ⟨hd, fun found g heq => ?_, by simp⟩
    cases heq
    cases hnone.symm.trans hd
  | @began _ _ sig' =>
    refine ⟨hd, by simp, ?_⟩
    intro heq
    cases heq
    -- a build is due only where nothing is remembered
    cases (hs sig rfl).symm.trans hd
  | @ended t _ sig' outcome r _ =>
    have hne : sig' ≠ sig := by
      rintro rfl
      exact hends outcome rfl
    refine ⟨?_, by simp, by simp⟩
    cases r with
    | error e => exact hd
    | ok d' => exact (Table.get?_insert ..).trans ((if_neg hne).trans hd)
  | forgot sig' =>
    have hne : sig' ≠ sig := by
      rintro rfl
      exact hforgets (.inl rfl)
    exact ⟨by rw [Table.get?_erase, if_neg hne, hd], by simp, by simp⟩
  | forgotAll => exact absurd (.inr rfl) hforgets

/-- Only builds that are under way end. -/
theorem Step.building {note : HookNote} (hstep : Step plan backend s note s')
    (hbegan : note ≠ .began sig) (hmem : sig ∈ s'.building) : sig ∈ s.building := by
  cases hstep with
  | began =>
    rcases List.mem_cons.1 hmem with rfl | hmem
    · exact absurd rfl hbegan
    · exact hmem
  | ended _ => exact List.mem_cons_of_mem _ hmem
  | _ => exact hmem

theorem Step.mem_of_ended {outcome : Except Fault (Option Graph)}
    (hstep : Step plan backend s (.ended sig outcome) s') : sig ∈ s.building := by
  cases hstep with
  | ended _ => exact List.mem_cons_self

/-- **A decision lasts** until it is forgotten, or until a build of its signature ends that is under
way already. -/
theorem Steps.lasts (hsteps : Steps plan backend s notes s') (hs : s.Ready)
    (hd : s.table.get? sig = some d) (hforgets : ∀ note ∈ notes, ¬ note.Forgets sig)
    (hends : sig ∈ s.building → ∀ outcome, .ended sig outcome ∉ notes) :
    s'.table.get? sig = some d ∧ (∀ found g, .asked sig found g ∈ notes → found = some d)
      ∧ .began sig ∉ notes := by
  induction hsteps with
  | nil s => exact ⟨hd, by simp, by simp⟩
  | @cons s s₁ s' note notes hstep hrest ih =>
    -- a build that ends here was under way before, so it is not of this signature
    have hnote : ∀ outcome, note ≠ .ended sig outcome := by
      rintro outcome rfl
      exact hends hstep.mem_of_ended outcome List.mem_cons_self
    obtain ⟨hd₁, hasked, hbegan⟩ := hstep.lasts hs hd (hforgets note List.mem_cons_self) hnote
    obtain ⟨hd', hasked', hbegan'⟩ :=
      ih hstep.ready hd₁ (fun note hmem => hforgets note (List.mem_cons_of_mem _ hmem))
      fun hmem outcome hended => hends (hstep.building hbegan hmem) outcome
        (List.mem_cons_of_mem _ hended)
    refine ⟨hd', fun found g hmem => ?_, fun hmem => ?_⟩
    · rcases List.mem_cons.1 hmem with heq | hmem
      · exact hasked found g heq.symm
      · exact hasked' found g hmem
    · rcases List.mem_cons.1 hmem with heq | hmem
      · exact hbegan heq.symm
      · exact hbegan' hmem

end Progress

/-! ## Whole histories -/

/-- The decisions of a hook last. -/
structure Lasting (E : Embedding V.noted) (k : HookId) (h : Host V.noted) (plan : HookPlan V.noted)
    (t : Table Signature Decision) : Prop where
  /-- A call that comes to a transform goes by what is decided. -/
  call : ∀ again E' n callee rest tr,
    (⟨plan, t⟩ : Hook V.noted).handler (.ofValues (callee :: rest)) = .ok (.transform tr) →
    callHook again E' n k (callee :: rest) h
      = (decide? again E' k (.ofValues (callee :: rest)) tr
        >>= Decision.follow again n callee rest) h
  /-- So does an inspection. -/
  inspect : ∀ again E' sig tr, (⟨plan, t⟩ : Hook V.noted).handler sig = .ok (.transform tr) →
    hookGraph again E' k sig h = (decide? again E' k sig tr >>= fun d => pure d.graph?) h
  /-- What is decided is remembered from then on. -/
  remembers : ∀ n sig tr d h', (⟨plan, t⟩ : Hook V.noted).handler sig = .ok (.transform tr) →
    decide? (noted E k n) (E.noting k) k sig tr (h.noting (h.question? k sig)) = some (.ok d, h') →
    ∃ t', h'.hook? k = some ⟨plan, t'⟩ ∧ t'.get? sig = some d
  /-- What is remembered is decided. -/
  finds : ∀ again E' sig tr d, (⟨plan, t⟩ : Hook V.noted).handler sig = .ok (.transform tr) →
    t.get? sig = some d →
    decide? again E' k sig tr h = some (.ok d, h)
  /-- Whatever a program asks for, what is remembered at one moment is remembered, and found by
  those who ask for it, up to another moment, if it was not forgotten in between and no build of it
  ended that was under way before. -/
  lasts : ∀ n (α : Type) (p : Prog V.noted α) result h',
    p.sealed.exec (noted E k n) h = some (result, h') →
    p.sealed.exec (perform E.sealed n) (h.mapMemory unnoted) = some (result, h'.mapMemory unnoted)
    ∧ ∃ notes t', h'.hook? k = some ⟨plan, t'⟩ ∧ h'.memory.2 = h.memory.2 ++ notes
      ∧ ∀ before between after, notes = before ++ (between ++ after) → ∃ s s',
        Progress.Steps plan h.backend ⟨t, [], none⟩ before s
          ∧ Progress.Steps plan h.backend s between s'
        ∧ Progress.Steps plan h.backend s' after ⟨t', [], none⟩
        ∧ ∀ sig d, s.table.get? sig = some d → (∀ note ∈ between, ¬ note.Forgets sig) →
          (sig ∈ s.building → ∀ outcome, .ended sig outcome ∉ between) →
          s'.table.get? sig = some d ∧ (∀ found g, .asked sig found g ∈ between → found = some d)
            ∧ .began sig ∉ between

/-- **A decision lasts until it is forgotten.** This is so for every hook, every transform and every
program, also for transforms that have their own hook called while they run; only builds of a
signature that are part of one another are not spoken of. So calls that go by a compiled graph go by
the same compilation as long as it is not forgotten. -/
theorem decision_lasts (E : Embedding V.noted) {k : HookId} {h : Host V.noted}
    {plan : HookPlan V.noted} {t : Table Signature Decision} (hhook : h.hook? k = some ⟨plan, t⟩) :
    Lasting E k h plan t where
  call _ _ n _ _ _ hhandler := callHook_transform hhook hhandler n
  inspect _ _ _ _ hhandler := hookGraph_transform hhook hhandler
  remembers n _ _ d _ hhandler hrun :=
    (follows_decide? (traced_noted E k plan n) hhook hhandler hrun).2 d rfl
  finds _ _ _ _ _ _ hd := decide?_found hhook hd
  lasts n α p result h' hrun := by
    obtain ⟨herased, notes, t', hhook', hlog, hsteps⟩ := history_exec E n p hhook hrun
    refine ⟨herased, notes, t', hhook', hlog, fun before between after hnotes => ?_⟩
    obtain ⟨s, hbefore, hrest⟩ := (hnotes ▸ hsteps).split
    obtain ⟨s', hbetween, hafter⟩ := hrest.split
    have hready : s.Ready := hbefore.ready fun sig hdue => by cases hdue
    exact ⟨s, s', hbefore, hbetween, hafter, fun sig d hd hforgets hends =>
      hbetween.lasts hready hd hforgets hends⟩

/-- A graph that gives seven. -/
def seven : Compiled := ⟨0, ⟨#[], #[⟨[], [], [.leave (.const (.int 7))]⟩], [], none⟩, false⟩

/-- Calls `f` through the hook, defines it anew, and calls it again. -/
def repeating : Prog sparse.noted (List Value) := do
  let first : Value ← Prog.request (.hookCall ⟨0⟩ [.func ⟨0⟩])
  let _ ← Prog.request (.define "b" "fn f() { 2 }")
  let second : Value ← Prog.request (.hookCall ⟨0⟩ [.func ⟨0⟩])
  return [first, second]

/-- The compiled graph that is remembered for `f` is run, and it stays. -/
theorem decision_lasts_repeating : ∃ h' t',
    repeating.sealed.exec (noted leaving ⟨0⟩ 8)
      (hooked () ⟨[(.ofValues [.func ⟨0⟩], .unit seven)]⟩ ((), []))
        = some (.ok [.int 7, .int 7], h')
      ∧ h'.hook? ⟨0⟩ = some ⟨interceptingAll (V := sparse.noted) (), t'⟩
      ∧ t'.get? (.ofValues [.func ⟨0⟩]) = some (.unit seven) := by
  obtain ⟨h', hrun, hspared⟩ : ∃ h', repeating.sealed.exec (noted leaving ⟨0⟩ 8)
        (hooked () ⟨[(.ofValues [.func ⟨0⟩], .unit seven)]⟩ ((), []))
          = some (.ok [.int 7, .int 7], h')
      ∧ ∀ note ∈ h'.memory.2, ¬ note.Forgets (.ofValues [.func ⟨0⟩]) := by
    refine ⟨_, by cbv, ?_⟩
    simp [HookNote.Forgets]
  obtain ⟨-, notes, t', hhook', hlog, hlasts⟩ :=
    (decision_lasts leaving rfl).lasts 8 _ repeating _ h' hrun
  obtain ⟨s, s', hbefore, -, hafter, hstays⟩ := hlasts [] notes [] (List.append_nil _).symm
  cases hbefore
  cases hafter
  have hnotes : h'.memory.2 = notes := hlog
  exact ⟨h', t', hrun, hhook', (hstays _ _ rfl (hnotes ▸ hspared) (by simp)).1⟩

/-! ## Where decisions do not last -/

/-- Which compilations the table remembers. -/
def compilations (t : Table Signature Decision) : List Nat :=
  t.entries.filterMap fun e => match e.2 with
    | .unit u => some u.serial
    | .direct => none

/-- What a transform has seen: nothing before its first run, and then a value and the compilations
of that time. -/
def seeing : Vocabulary := ⟨Unit, Unit, Option (Value × List Nat)⟩

/-- At its first run, the transform calls its own hook for the call that it is made for, writes down
what the call gives and what the hook remembers, and gives seven. At other runs, it leaves the graph
as it is. -/
def reentering : Embedding seeing.noted where
  native _ _ := return .nothing
  transform _ o g := do
    if (← Prog.memory).1.isSome then
      return some g
    Prog.update fun m => (some (.nothing, []), m.2)
    let value : Value ← Prog.request (.hookCall o.hook [.func ⟨0⟩])
    let hook : Hook _ ← Prog.request (.hook o.hook)
    Prog.update fun m => (some (value, compilations hook.decisions), m.2)
    return some seven.graph

/-- Calls `f` through the hook, and calls it again. -/
def calling : Prog seeing.noted (List Value) := do
  let first : Value ← Prog.request (.hookCall ⟨0⟩ [.func ⟨0⟩])
  let second : Value ← Prog.request (.hookCall ⟨0⟩ [.func ⟨0⟩])
  return [first, second]

/-- What is remembered for `f` is replaced though it is never forgotten. The call within the build
gives one, by compilation 0, which is remembered after it. The calls that end later give seven, by
compilation 1, which is remembered instead. -/
theorem decisions_replaced : ∃ h' t',
    calling.sealed.exec (noted reentering ⟨0⟩ 8) (hooked () .empty (none, []))
      = some (.ok [.int 7, .int 7], h')
      ∧ h'.memory.1 = some (.int 1, [0])
      ∧ h'.hook? ⟨0⟩ = some ⟨interceptingAll (V := seeing.noted) (), t'⟩ ∧ compilations t' = [1]
      ∧ ∀ note ∈ h'.memory.2, ¬ note.Forgets (.ofValues [.func ⟨0⟩]) := by
  refine ⟨_, _, by cbv, by cbv, by cbv, by cbv, ?_⟩
  simp [HookNote.Forgets]

end Interpose
