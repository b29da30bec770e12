import Interpose.Proofs.Host.Noting

/-!
# What notes mean

`Progress.Step` says what a note means for the table of a hook, and which builds are under way then.
It speaks of tables and notes only. That every run obeys it is shown by induction on the fuel,
request by request: what does not concern the hook leaves the table, and a request that concerns it
is followed from its note on.
-/

set_option autoImplicit false

namespace Interpose

open Run

variable {V : Vocabulary} {α β : Type}

/-! ## Progress -/

/-- The plan leaves calls of the signature to a transform. -/
def HookPlan.Transforms (plan : HookPlan V) (sig : Signature) : Prop :=
  ∃ t, (⟨plan, .empty⟩ : Hook V).handler sig = .ok (.transform t)

/-- What is decided when a transform has ended. Its fault is the fault of the build, and so is what
the backend has against its graph. -/
inductive Settles (backend : Backend) : Except Fault (Option Graph) → Except Fault Decision → Prop
  | fault (e : Fault) : Settles backend (.error e) (.error e)
  | refused {g : Graph} {e : Fault} :
    backend.prepare g = .error e → Settles backend (.ok (some g)) (.error e)
  | declined : Settles backend (.ok none) (.ok .direct)
  | unit {g g' : Graph} (serial : Nat) : backend.prepare g = .ok g' →
    Settles backend (.ok (some g)) (.ok (.unit ⟨serial, g', backend.hides⟩))

/-- The table after a build: a decision is remembered, whatever was remembered before, and a fault
is not. -/
def Table.settle (t : Table Signature Decision) (sig : Signature) :
    Except Fault Decision → Table Signature Decision
  | .error _ => t
  | .ok d => t.insert sig d

/-- How far the hook has come: its table, the builds under way, the last one first, and the build
that has to begin at once. -/
structure Progress where
  table : Table Signature Decision
  building : List Signature
  due : Option Signature

/-- What a note means. -/
inductive Progress.Step (plan : HookPlan V) (backend : Backend) :
    Progress → HookNote → Progress → Prop
  /-- What is remembered is found. -/
  | found {t : Table Signature Decision} {building : List Signature} {sig : Signature}
    {d : Decision} {g : Bool} :
    plan.Transforms sig → t.get? sig = some d →
    Step plan backend ⟨t, building, none⟩ (.asked sig (some d) g) ⟨t, building, none⟩
  /-- Without a graph there is nothing to build, and the callee is to be called as it is. -/
  | direct {t : Table Signature Decision} {building : List Signature} {sig : Signature} :
    plan.Transforms sig → t.get? sig = none →
    Step plan backend ⟨t, building, none⟩ (.asked sig none false)
      ⟨t.insert sig .direct, building, none⟩
  /-- Where nothing is remembered, a build is due. -/
  | due {t : Table Signature Decision} {building : List Signature} {sig : Signature} :
    plan.Transforms sig → t.get? sig = none →
    Step plan backend ⟨t, building, none⟩ (.asked sig none true) ⟨t, building, some sig⟩
  | began {t : Table Signature Decision} {building : List Signature} {sig : Signature} :
    Step plan backend ⟨t, building, some sig⟩ (.began sig) ⟨t, sig :: building, none⟩
  | ended {t : Table Signature Decision} {building : List Signature} {sig : Signature}
      {outcome : Except Fault (Option Graph)}
      {r : Except Fault Decision} : Settles backend outcome r →
    Step plan backend ⟨t, sig :: building, none⟩ (.ended sig outcome)
      ⟨t.settle sig r, building, none⟩
  | forgot {t : Table Signature Decision} {building : List Signature} (sig : Signature) :
    Step plan backend ⟨t, building, none⟩ (.forgot (some sig)) ⟨t.erase sig, building, none⟩
  | forgotAll {t : Table Signature Decision} {building : List Signature} :
    Step plan backend ⟨t, building, none⟩ (.forgot none) ⟨.empty, building, none⟩

/-- What notes mean one after another. -/
inductive Progress.Steps (plan : HookPlan V) (backend : Backend) :
    Progress → List HookNote → Progress → Prop
  | nil (s : Progress) : Steps plan backend s [] s
  | cons {s s' s'' : Progress} {note : HookNote} {notes : List HookNote} :
    Step plan backend s note s' → Steps plan backend s' notes s'' →
    Steps plan backend s (note :: notes) s''

namespace Progress.Steps

variable {plan : HookPlan V} {backend : Backend} {s s' s'' : Progress}
  {notes notes' : List HookNote}

theorem append (h : Steps plan backend s notes s') (h' : Steps plan backend s' notes' s'') :
    Steps plan backend s (notes ++ notes') s'' := by
  induction h with
  | nil => exact h'
  | cons hstep _ ih => exact .cons hstep (ih h')

theorem single {note : HookNote} (h : Step plan backend s note s') :
    Steps plan backend s [note] s' :=
  .cons h (.nil s')

/-- Between any two notes there is a moment. -/
theorem split (h : Steps plan backend s (notes ++ notes') s'') :
    ∃ s', Steps plan backend s notes s' ∧ Steps plan backend s' notes' s'' := by
  induction notes generalizing s with
  | nil => exact ⟨s, .nil s, h⟩
  | cons note notes ih =>
    cases h with
    | cons hstep hrest =>
      obtain ⟨s', hfirst, hsecond⟩ := ih hrest
      exact ⟨s', .cons hstep hfirst, hsecond⟩

end Progress.Steps

/-! ## Hosts that follow one another -/

namespace Host

variable {k : HookId} {plan : HookPlan V.noted} {h h₁ h₂ : Host V.noted}

/-- The second host has come from the first by what is noted in between. The builds that were under
way then are under way now. -/
def Follows (k : HookId) (plan : HookPlan V.noted) (h h' : Host V.noted) : Prop :=
  h'.backend = h.backend ∧ ∃ t t' notes, h.hook? k = some ⟨plan, t⟩ ∧ h'.hook? k = some ⟨plan, t'⟩
    ∧ h'.memory.2 = h.memory.2 ++ notes
    ∧ ∀ building, Progress.Steps plan h.backend ⟨t, building, none⟩ notes ⟨t', building, none⟩

theorem Follows.refl {t : Table Signature Decision} (hhook : h.hook? k = some ⟨plan, t⟩) :
    h.Follows k plan h :=
  ⟨rfl, t, t, [], hhook, hhook, (List.append_nil _).symm, fun _ => .nil _⟩

theorem Follows.trans (h₁₂ : h.Follows k plan h₁) (h₂₃ : h₁.Follows k plan h₂) :
    h.Follows k plan h₂ := by
  obtain ⟨hbackend, t, t₁, notes, hhook, hhook₁, hlog, hsteps⟩ := h₁₂
  obtain ⟨hbackend', t₁', t₂, notes', hhook₁', hhook₂, hlog', hsteps'⟩ := h₂₃
  obtain rfl : t₁ = t₁' := congrArg Hook.decisions (Option.some.inj (hhook₁.symm.trans hhook₁'))
  refine ⟨hbackend'.trans hbackend, t, t₂, notes ++ notes', hhook, hhook₂, ?_, fun building => ?_⟩
  · rw [hlog', hlog, List.append_assoc]
  · exact (hsteps building).append (hbackend ▸ hsteps' building)

/-- What leaves the hook, the notes and the backend alone does not matter. -/
theorem Follows.of_same (hfollows : h.Follows k plan h₁) (hhook : h₂.hook? k = h₁.hook? k)
    (hlog : h₂.memory.2 = h₁.memory.2) (hbackend : h₂.backend = h₁.backend) :
    h.Follows k plan h₂ := by
  obtain ⟨hbackend₀, t₀, t, notes, hhook₀, hhook', hlog', hsteps⟩ := hfollows
  exact ⟨hbackend.trans hbackend₀, t₀, t, notes, hhook₀, hhook.trans hhook',
    hlog.trans hlog', hsteps⟩

theorem Follows.hook (hfollows : h.Follows k plan h₁) : ∃ t, h₁.hook? k = some ⟨plan, t⟩ := by
  obtain ⟨-, -, t, -, -, hhook, -⟩ := hfollows
  exact ⟨t, hhook⟩

/-- The second host has come from the first one, and what was decided is what it remembers. -/
def Decided (k : HookId) (plan : HookPlan V.noted) (h : Host V.noted) (sig : Signature)
    (r : Except Fault Decision) (h' : Host V.noted) : Prop :=
  h.Follows k plan h' ∧ ∀ d, r = .ok d → ∃ t, h'.hook? k = some ⟨plan, t⟩ ∧ t.get? sig = some d

/-- Installing a function concerns no hook. -/
theorem install_same {h h' : Host V} {fn : Function V} {f : FuncId}
    (hinstall : h.install fn = .ok (h', f)) :
    h'.hooks = h.hooks ∧ h'.memory = h.memory ∧ h'.backend = h.backend := by
  unfold Host.install at hinstall
  split at hinstall
  · split at hinstall
    all_goals cases hinstall
    exact ⟨rfl, rfl, rfl⟩
  · cases hinstall
  · cases hinstall
    exact ⟨rfl, rfl, rfl⟩

theorem hook?_registerHook {h : Host V} {hook : Hook V} (hhook : h.hook? k = some hook)
    (plan' : HookPlan V) : (h.registerHook plan').1.hook? k = h.hook? k := by
  have hlt : k.index < h.hooks.size := (Array.getElem?_eq_some_iff.1 hhook).1
  exact (Array.getElem?_push_lt hlt).trans (Array.getElem?_eq_getElem hlt).symm

theorem hook?_remember {h : Host V} {plan : HookPlan V} {t : Table Signature Decision}
    (hhook : h.hook? k = some ⟨plan, t⟩) (sig : Signature) (d : Decision) :
    (h.remember k sig d).hook? k = some ⟨plan, t.insert sig d⟩ := by
  rw [remember, hook?_modifyDecisions, if_pos rfl, hhook]
  rfl

/-- Whatever does not concern the hook may happen in between. -/
theorem stable_follows (h₀ : Host V.noted) (k : HookId) (plan : HookPlan V.noted) :
    Stable (h₀.Follows k plan) fun k' => k' ≠ k where
  install h fn h' f hfollows hinstall := by
    obtain ⟨hhooks, hmemory, hbackend⟩ := install_same hinstall
    exact hfollows.of_same (congrArg (·[k.index]?) hhooks) (congrArg Prod.snd hmemory) hbackend
  setGlobal _ _ _ hfollows := hfollows.of_same rfl rfl rfl
  registerHook h plan' hfollows := by
    obtain ⟨t, hhook⟩ := hfollows.hook
    exact hfollows.of_same (hook?_registerHook hhook plan') rfl rfl
  compile h g h' u hfollows hcompile := by
    obtain ⟨rfl, -⟩ := compile_apply hcompile
    exact hfollows.of_same rfl rfl rfl
  depth _ _ hfollows := hfollows.of_same rfl rfl rfl
  decisions h k' f hk hfollows := by
    refine hfollows.of_same ?_ rfl rfl
    rw [hook?_modifyDecisions, if_neg hk]

end Host

/-! ## Runs that are traced -/

/-- Wherever the run begins, what it does to the hook is what is noted meanwhile. -/
def Exec.Traced (k : HookId) (plan : HookPlan V.noted) (x : Exec V.noted α) : Prop :=
  ∀ h t, h.hook? k = some ⟨plan, t⟩ → ∀ r h', x h = some (r, h') → h.Follows k plan h'

section Traced

variable {k : HookId} {plan : HookPlan V.noted} {x : Exec V.noted α}

theorem traced_ofExcept (r : Except Fault α) : Exec.Traced k plan (Run.ofExcept r) := by
  intro h t hhook r' h' hrun
  cases hrun
  exact .refl hhook

theorem Exec.Traced.bind {f : α → Exec V.noted β} (hx : x.Traced k plan)
    (hf : ∀ a, (f a).Traced k plan) : (x >>= f).Traced k plan := by
  intro h t hhook r h' hrun
  rw [bind_apply] at hrun
  rcases hfirst : x h with _ | ⟨e | a, h₁⟩
  all_goals rw [hfirst] at hrun
  · cases hrun
  · cases hrun
    exact hx h t hhook _ _ hfirst
  · have hfollows := hx h t hhook _ _ hfirst
    obtain ⟨t₁, hhook₁⟩ := hfollows.hook
    exact hfollows.trans (hf a h₁ t₁ hhook₁ r h' hrun)

theorem Exec.Traced.observe (hx : x.Traced k plan) : Exec.Traced k plan (Run.observe x) := by
  intro h t hhook r h' hrun
  rw [Exec.observe_apply] at hrun
  obtain ⟨⟨r₁, h₁⟩, hrun₁, heq⟩ := Option.map_eq_some_iff.1 hrun
  cases heq
  exact hx h t hhook r₁ h₁ hrun₁

/-- What is traced keeps up with what was there before it began. -/
theorem Exec.Traced.tied (hx : x.Traced k plan) (h₀ : Host V.noted) :
    Tied (Host.Beside id (h₀.Follows k plan)) x x := by
  refine tied_of_same (fun _ _ => rfl) fun h hfollows r h' hrun => ?_
  obtain ⟨t, hhook⟩ := hfollows.hook
  exact hfollows.trans (hx h t hhook r h' hrun)

theorem traced_of_tied (hx : ∀ h₀ : Host V.noted, Tied (Host.Beside id (h₀.Follows k plan)) x x) :
    x.Traced k plan :=
  fun h _ hhook _ _ hrun => (hx h).keeps (.refl hhook) hrun

end Traced

section Requests

variable {E : Embedding V.noted} {k : HookId} {plan : HookPlan V.noted}
  {again : (r : Request V.noted) → Exec V.noted r.Answer} {h h' : Host V.noted}
  {t : Table Signature Decision} {sig : Signature} {tr : V.Transform}

/-- What is noted when the hook needs its transform. -/
theorem noting_transform (hhook : h.hook? k = some ⟨plan, t⟩)
    (hhandler : (⟨plan, t⟩ : Hook V.noted).handler sig = .ok (.transform tr)) :
    h.noting (h.question? k sig)
      = h.withNote (.asked sig (t.get? sig) (h.provenance sig).isOk) := by
  unfold Host.question?
  rw [hhook]
  dsimp only
  rw [hhandler]
  rfl

/-- Otherwise nothing is noted. -/
theorem noting_nothing (hhook : h.hook? k = some ⟨plan, t⟩)
    (hhandler : ∀ tr, (⟨plan, t⟩ : Hook V.noted).handler sig ≠ .ok (.transform tr)) :
    h.noting (h.question? k sig) = h := by
  unfold Host.question?
  rw [hhook]
  dsimp only
  rcases hget : (⟨plan, t⟩ : Hook V.noted).handler sig with e | (tr | native)
  · rfl
  · exact absurd hget (hhandler tr)
  · rfl

/-- **A refresh of the hook is followed** from its note on. -/
theorem follows_refresh (hhook : h.hook? k = some ⟨plan, t⟩) {sig : Option Signature}
    {r : Except Fault Bool} (hrun : Exec.change (·.refresh k sig) (h.withNote (.forgot sig))
      = some (r, h')) : h.Follows k plan h' := by
  have hask : (h.withNote (.forgot sig)).hook k = .ok ⟨plan, t⟩ := Host.hook_of_hook? hhook
  have hforgotten : ∀ f, ((h.withNote (.forgot sig)).modifyDecisions k f).hook? k
      = some ⟨plan, f t⟩ := by
    intro f
    rw [Host.hook?_modifyDecisions, if_pos rfl,
      show (h.withNote (.forgot sig)).hook? k = some ⟨plan, t⟩ from hhook]
    rfl
  rw [Exec.change_apply] at hrun
  unfold Host.refresh at hrun
  rw [hask] at hrun
  rcases sig with _ | sig
  · cases hrun
    exact ⟨rfl, t, .empty, [.forgot none], hhook, hforgotten _, rfl,
      fun building => .single .forgotAll⟩
  · cases hrun
    exact ⟨rfl, t, t.erase sig, [.forgot (some sig)], hhook, hforgotten _, rfl,
      fun building => .single (.forgot sig)⟩

variable (hagain : ∀ r, (again r).Traced k plan)

include hagain

/-- A sealed program leaves the notes to those who answer its requests. -/
theorem traced_sealed (p : Prog V.noted α) : (p.sealed.exec again).Traced k plan := by
  induction p with
  | done a => exact traced_ofExcept (.ok a)
  | fail e => exact traced_ofExcept (.error e)
  | read next ih => exact fun h t hhook r h' hrun => ih (h.memory.1, []) h t hhook r h' hrun
  | write m next ih =>
    intro h t hhook r h' hrun
    have hwritten : h.Follows k plan { h with memory := (m.1, h.memory.2) } :=
      (Host.Follows.refl hhook).of_same rfl rfl rfl
    exact hwritten.trans (ih { h with memory := (m.1, h.memory.2) } t hhook r h' hrun)
  | ask r next ih => exact (hagain r).observe.bind ih

theorem traced_follow (n : Nat) (callee : Value) (rest : List Value) (d : Decision) :
    (d.follow again n callee rest).Traced k plan := by
  cases d with
  | unit u =>
    refine traced_of_tied fun h₀ => .invoke (fun h h' hbeside m => ?_)
      (fun f args => (hagain _).tied h₀) u.graph n rest
    rw [hbeside.memory]
    rfl
  | direct => exact hagain (.call callee rest)

/-! ## Decisions -/

/-- **A build is what is noted between its two notes.** What it gives is settled by how the
transform ended. -/
theorem build_noted {p : Provenance} (hhook : h.hook? k = some ⟨plan, t⟩)
    (hp : h.provenance sig = .ok p) {r : Except Fault Decision}
    (hrun : buildDecision again (E.noting k) k sig tr h = some (r, h')) :
    ∃ outcome t' notes, Settles h.backend outcome r ∧ h'.backend = h.backend
      ∧ h'.hook? k = some ⟨plan, t'⟩
      ∧ h'.memory.2 = h.memory.2 ++ (.began sig :: (notes ++ [.ended sig outcome]))
      ∧ ∀ building, Progress.Steps plan h.backend ⟨t, building, none⟩ notes
        ⟨t', building, none⟩ := by
  obtain ⟨g, hg, -⟩ := exists_lower p
  have hnoting : ((E.noting k).transform tr ⟨k, sig⟩ g).exec again h
      = ((E.transform tr ⟨k, sig⟩ g).sealed.exec again (h.withNote (.began sig))).map fun x =>
        (x.1, x.2.withNote (.ended sig x.1)) := E.exec_noting again tr ⟨k, sig⟩ g h
  rw [buildDecision_of_ok hp hg, hnoting] at hrun
  rcases hprogram : (E.transform tr ⟨k, sig⟩ g).sealed.exec again (h.withNote (.began sig)) with
    _ | ⟨outcome, h₁⟩
  · rw [hprogram] at hrun
    cases hrun
  rw [hprogram] at hrun
  dsimp only [Option.map] at hrun
  obtain ⟨hbackend, t₀, t', notes, hhook₀, hhook', hlog, hsteps⟩ :=
    traced_sealed hagain (E.transform tr ⟨k, sig⟩ g) (h.withNote (.began sig)) t hhook _ _ hprogram
  obtain rfl : t = t₀ := congrArg Hook.decisions (Option.some.inj (hhook.symm.trans hhook₀))
  have hlog' : h₁.memory.2 ++ [.ended sig outcome]
      = h.memory.2 ++ (.began sig :: (notes ++ [.ended sig outcome])) := by
    rw [hlog]
    simp [Host.withNote]
  refine ⟨outcome, t', notes, ?_⟩
  -- the hook has to do with it no more: what is left is to compile a graph that was given
  rcases outcome with e | _ | g'
  · cases hrun
    exact ⟨.fault e, hbackend, hhook', hlog', hsteps⟩
  · cases hrun
    exact ⟨.declined, hbackend, hhook', hlog', hsteps⟩
  · have hbackend' : (h₁.withNote (.ended sig (.ok (some g')))).backend = h.backend := hbackend
    rcases hcompile : (h₁.withNote (.ended sig (.ok (some g')))).compile g' with e | ⟨h₂, u⟩
    all_goals
      dsimp only at hrun
      rw [hcompile] at hrun
    · cases hrun
      have hrefused : h.backend.prepare g' = .error e := hbackend' ▸ Host.compile_refused hcompile
      exact ⟨.refused hrefused, hbackend, hhook', hlog', hsteps⟩
    · cases hrun
      obtain ⟨rfl, hprepare, hhidden⟩ := Host.compile_apply hcompile
      have hprepare' : h.backend.prepare g' = .ok u.graph := hbackend' ▸ hprepare
      have hhidden' : u.hidden = h.backend.hides := hbackend' ▸ hhidden
      obtain ⟨serial, graph, hidden⟩ := u
      obtain rfl : hidden = h.backend.hides := hhidden'
      exact ⟨.unit serial hprepare', hbackend, hhook', hlog', hsteps⟩

omit hagain in
/-- A decision that is found changes nothing. -/
theorem decided_found {d : Decision} {g : Bool} (hhook : h.hook? k = some ⟨plan, t⟩)
    (htransforms : plan.Transforms sig) (hd : t.get? sig = some d) :
    h.Decided k plan sig (.ok d) (h.withNote (.asked sig (some d) g)) := by
  refine ⟨⟨rfl, t, t, [.asked sig (some d) g], hhook, hhook, rfl, fun building =>
    .single (.found htransforms hd)⟩, ?_⟩
  intro d' heq
  cases heq
  exact ⟨t, hhook, hd⟩

omit hagain in
/-- Without a graph it is remembered that the callee is to be called as it is. -/
theorem decided_direct (hhook : h.hook? k = some ⟨plan, t⟩) (htransforms : plan.Transforms sig)
    (hnone : t.get? sig = none) :
    h.Decided k plan sig (.ok .direct)
      ((h.withNote (.asked sig none false)).remember k sig .direct) := by
  have hremembered :=
    Host.hook?_remember (h := h.withNote (.asked sig none false)) hhook sig .direct
  refine ⟨⟨rfl, t, _, [.asked sig none false], hhook, hremembered, rfl, fun building =>
    .single (.direct htransforms hnone)⟩, ?_⟩
  intro d heq
  cases heq
  exact ⟨_, hremembered, by rw [Table.get?_insert, if_pos rfl]⟩

/-- With a graph the decision is built, and remembered unless there is a fault. -/
theorem decided_built {p : Provenance} (hhook : h.hook? k = some ⟨plan, t⟩)
    (htransforms : plan.Transforms sig) (hnone : t.get? sig = none) (hp : h.provenance sig = .ok p)
    {r : Except Fault Decision}
    (hrun : buildDecision again (E.noting k) k sig tr (h.withNote (.asked sig none true))
      = some (r, h')) :
    h.Decided k plan sig r (r.toOption.elim h' (h'.remember k sig)) := by
  obtain ⟨outcome, t', notes, hsettles, hbackend, hhook', hlog, hsteps⟩ :=
    build_noted hagain (h := h.withNote (.asked sig none true)) hhook hp hrun
  -- the build is under way from the second note to the last
  have hsteps' : ∀ building, Progress.Steps plan h.backend ⟨t, building, none⟩
      ([.asked sig none true, .began sig] ++ (notes ++ [.ended sig outcome]))
      ⟨t'.settle sig r, building, none⟩ :=
    fun building => .cons (.due htransforms hnone)
      (.cons .began ((hsteps (sig :: building)).append (.single (.ended hsettles))))
  have hlog' : h'.memory.2
      = h.memory.2 ++ ([.asked sig none true, .began sig] ++ (notes ++ [.ended sig outcome])) := by
    rw [hlog]
    simp [Host.withNote]
  rcases r with e | d
  · refine ⟨⟨hbackend, t, t', _, hhook, hhook', hlog', hsteps'⟩, ?_⟩
    intro d heq
    cases heq
  · have hremembered := Host.hook?_remember hhook' sig d
    refine ⟨⟨hbackend, t, _, _, hhook, hremembered, hlog', hsteps'⟩, ?_⟩
    intro d' heq
    cases heq
    exact ⟨_, hremembered, by rw [Table.get?_insert, if_pos rfl]⟩

/-- **A decision is what the notes say.** It is followed from the note that the hook is asked to
where it has come to a decision, and then this decision is the one that it remembers. -/
theorem follows_decide? (hhook : h.hook? k = some ⟨plan, t⟩)
    (hhandler : (⟨plan, t⟩ : Hook V.noted).handler sig = .ok (.transform tr))
    {r : Except Fault Decision}
    (hrun : decide? again (E.noting k) k sig tr (h.noting (h.question? k sig)) = some (r, h')) :
    h.Decided k plan sig r h' := by
  have htransforms : plan.Transforms sig := ⟨tr, hhandler⟩
  have hhook₁ : ∀ note, (h.withNote note).hook? k = some ⟨plan, t⟩ := fun _ => hhook
  rw [noting_transform hhook hhandler] at hrun
  rcases hfound : t.get? sig with _ | d
  · rw [hfound, decide?_missing (hhook₁ _) hfound] at hrun
    -- without a graph there is nothing to build; otherwise the build is noted from here on
    rcases hp : h.provenance sig with e | p
    · rw [hp, buildDecision_of_error (show (h.withNote _).provenance sig = .error e from hp)]
        at hrun
      cases hrun
      exact decided_direct hhook htransforms hfound
    · rw [hp, show (Except.ok p : Except GraphError Provenance).isOk = true from rfl] at hrun
      rcases hbuild : buildDecision again (E.noting k) k sig tr
        (h.withNote (.asked sig none true)) with _ | ⟨r₁, h₁⟩
      all_goals rw [hbuild] at hrun
      · cases hrun
      have hdecided := decided_built hagain hhook htransforms hfound hp hbuild
      rcases r₁ with e | d
      · cases hrun
        exact hdecided
      · cases hrun
        exact hdecided
  · rw [hfound, decide?_found (hhook₁ _) hfound] at hrun
    cases hrun
    exact decided_found hhook htransforms hfound

/-- **A call of the hook is followed** from its note on. -/
theorem follows_callHook (hhook : h.hook? k = some ⟨plan, t⟩) (n : Nat) (args : List Value)
    {r : Except Fault Value}
    (hrun : callHook again (E.noting k) n k args (h.noting (h.callQuestion? k args))
      = some (r, h')) :
    h.Follows k plan h' := by
  rcases args with _ | ⟨callee, rest⟩
  · rw [show h.noting (h.callQuestion? k []) = h from rfl, callHook_nil hhook] at hrun
    cases hrun
    exact .refl hhook
  rw [Host.callQuestion?] at hrun
  rcases hhandler : (⟨plan, t⟩ : Hook V.noted).handler (.ofValues (callee :: rest)) with
    e | (tr | native)
  · rw [noting_nothing hhook (by simp [hhandler]), callHook_fault hhook hhandler] at hrun
    cases hrun
    exact .refl hhook
  · -- the note about the question leaves the hook as it is
    have hhook₁ : (h.noting (h.question? k (.ofValues (callee :: rest)))).hook? k
        = some ⟨plan, t⟩ := by
      rw [noting_transform hhook hhandler]
      exact hhook
    rw [callHook_transform hhook₁ hhandler, bind_apply] at hrun
    rcases hdecide : decide? again (E.noting k) k (.ofValues (callee :: rest)) tr
      (h.noting (h.question? k (.ofValues (callee :: rest)))) with _ | ⟨e | d, h₁⟩
    all_goals rw [hdecide] at hrun
    · cases hrun
    · cases hrun
      exact (follows_decide? hagain hhook hhandler hdecide).1
    · obtain ⟨hfollows, hremembered⟩ := follows_decide? hagain hhook hhandler hdecide
      obtain ⟨t₁, hhook₁, -⟩ := hremembered d rfl
      exact hfollows.trans (traced_follow hagain n callee rest d h₁ t₁ hhook₁ r h' hrun)
  · rw [noting_nothing hhook (by simp [hhandler]), callHook_native hhook hhandler] at hrun
    exact traced_sealed hagain _ h t hhook r h' hrun

/-- **An inspection of the hook is followed** from its note on. -/
theorem follows_hookGraph (hhook : h.hook? k = some ⟨plan, t⟩) {r : Except Fault (Option Graph)}
    (hrun : hookGraph again (E.noting k) k sig (h.noting (h.question? k sig)) = some (r, h')) :
    h.Follows k plan h' := by
  rcases hhandler : (⟨plan, t⟩ : Hook V.noted).handler sig with e | (tr | native)
  · rw [noting_nothing hhook (by simp [hhandler]), hookGraph_fault hhook hhandler] at hrun
    cases hrun
    exact .refl hhook
  · have hhook₁ : (h.noting (h.question? k sig)).hook? k = some ⟨plan, t⟩ := by
      rw [noting_transform hhook hhandler]
      exact hhook
    rw [hookGraph_transform hhook₁ hhandler, bind_apply] at hrun
    rcases hdecide : decide? again (E.noting k) k sig tr (h.noting (h.question? k sig)) with
      _ | ⟨e | d, h₁⟩
    all_goals
      rw [hdecide] at hrun
      cases hrun
    · exact (follows_decide? hagain hhook hhandler hdecide).1
    · exact (follows_decide? hagain hhook hhandler hdecide).1
  · rw [noting_nothing hhook (by simp [hhandler]), hookGraph_native hhook hhandler] at hrun
    cases hrun
    exact .refl hhook

/-- A request that does not concern the hook leaves it alone, whatever comes up on the way. -/
theorem traced_within (n : Nat) {r : Request V.noted} (hr : r.Within fun k' => k' ≠ k) :
    (serve again (E.noting k) n r).Traced k plan := by
  refine traced_of_tied fun h₀ => ?_
  have hstable := Host.stable_follows h₀ k plan
  have htying : Tying id (h₀.Follows k plan) (fun k' => k' ≠ k) (E.noting k)
      (E.noting k) again again :=
    { firm := hstable.toFirm
      request := fun r => (hagain r).tied h₀
      native := fun n args => (traced_sealed hagain (E.native n args)).tied h₀
      transform := fun t o g ho => by
        rw [show (E.noting k).transform t o g = (E.transform t o g).sealed from if_neg ho]
        exact (traced_sealed hagain _).tied h₀ }
  have hserve :=
    htying.serve (hstable.toFirm.directUnit fun _ _ hfollows => hfollows.of_same rfl rfl rfl)
      hstable.depth n hr
  rwa [serveBy_directUnit] at hserve

end Requests

/-! ## Requests -/

section Runs

variable {k : HookId} {plan : HookPlan V.noted} {h h' : Host V.noted} {t : Table Signature Decision}

/-- What is not about the hook is not noted. -/
theorem Host.note?_of_within {h : Host V} {r : Request V} (hr : r.Within fun k' => k' ≠ k) :
    h.note? k r = none := by
  cases r with
  | call f args =>
    cases f with
    | hook k' => exact if_neg fun hk => hr hk.1
    | _ => rfl
  | hookCall k' args => exact if_neg hr
  | hookGraph k' sig => exact if_neg hr
  | refresh k' sig => exact if_neg hr
  | _ => rfl

/-- A request concerns the hook in one of four ways, or it does not. -/
theorem Request.within_or (k : HookId) (r : Request V) : (r.Within fun k' => k' ≠ k)
    ∨ (∃ sig, r = .refresh k sig) ∨ (∃ args, r = .call (.hook k) args)
    ∨ (∃ args, r = .hookCall k args)
    ∨ ∃ sig, r = .hookGraph k sig := by
  cases r with
  | refresh k' sig =>
    by_cases hk : k' = k
    · exact .inr (.inl ⟨sig, by rw [hk]⟩)
    · exact .inl hk
  | call f args =>
    cases f with
    | hook k' =>
      by_cases hk : k' = k
      · exact .inr (.inr (.inl ⟨args, by rw [hk]⟩))
      · exact .inl hk
    | _ => exact .inl trivial
  | hookCall k' args =>
    by_cases hk : k' = k
    · exact .inr (.inr (.inr (.inl ⟨args, by rw [hk]⟩)))
    · exact .inl hk
  | hookGraph k' sig =>
    by_cases hk : k' = k
    · exact .inr (.inr (.inr (.inr ⟨sig, by rw [hk]⟩)))
    · exact .inl hk
  | _ => exact .inl trivial

/-- A call of the hook as a value enters twice, or is one too many. -/
theorem follows_call {E : Embedding V.noted} {again : (r : Request V.noted) → Exec V.noted r.Answer}
    (hagain : ∀ r, (again r).Traced k plan) (hhook : h.hook? k = some ⟨plan, t⟩) (n : Nat)
    (args : List Value) {r : Except Fault Value}
    (hrun : serve again (E.noting k) n (.call (.hook k) args)
      (h.noting (h.note? k (.call (.hook k) args))) = some (r, h')) : h.Follows k plan h' := by
  have hentered : serve again (E.noting k) n (.call (.hook k) args)
      = Exec.entered (Exec.entered (callHook again (E.noting k) n k args)) := rfl
  rw [hentered] at hrun
  by_cases hroom : h.depth + 2 ≤ h.maxDepth
  · rw [show h.note? k (.call (.hook k) args) = h.callQuestion? k args from if_pos ⟨rfl, hroom⟩]
      at hrun
    -- the depth is no part of the note
    have hdeeper : ∀ note?,
        ({ h.noting note? with depth := (h.noting note?).depth + 2 } : Host V.noted)
          = Host.noting { h with depth := h.depth + 2 } note? := by
      rintro (_ | note)
      · rfl
      · rfl
    have hquestion : h.callQuestion? k args
        = Host.callQuestion? { h with depth := h.depth + 2 } k args := by
      cases args <;> rfl
    have hroom' : ∀ note?, (h.noting note?).depth + 2 ≤ (h.noting note?).maxDepth := by
      rintro (_ | note)
      · exact hroom
      · exact hroom
    rw [Exec.entered_twice _ (hroom' _), hdeeper, hquestion] at hrun
    obtain ⟨⟨r₁, h₁⟩, hcall, heq⟩ := Option.map_eq_some_iff.1 hrun
    cases heq
    have hbegun : h.Follows k plan { h with depth := h.depth + 2 } :=
      (Host.Follows.refl hhook).of_same rfl rfl rfl
    have hcalled :=
      follows_callHook hagain (h := { h with depth := h.depth + 2 }) hhook n args hcall
    exact (hbegun.trans hcalled).of_same rfl rfl rfl
  · have hnote : h.note? k (.call (.hook k) args) = none := if_neg fun hk => hroom hk.2
    rw [hnote, show h.noting none = h from rfl, Exec.entered_twice_refused _ (Nat.not_le.1 hroom)]
      at hrun
    cases hrun
    exact .refl hhook

/-- **Every request is followed.** What becomes of the hook is what is noted, however the request is
answered. -/
theorem traced_noted (E : Embedding V.noted) (k : HookId) (plan : HookPlan V.noted) (n : Nat)
    (r : Request V.noted) : (noted E k n r).Traced k plan := by
  induction n generalizing r with
  | zero =>
    intro h t _ result h' hrun
    cases hrun
  | succ n ih =>
    intro h t hhook result h' hrun
    rw [noted_succ] at hrun
    rcases r.within_or k with hr | ⟨sig, rfl⟩ | ⟨args, rfl⟩ | ⟨args, rfl⟩ | ⟨sig, rfl⟩
    · rw [Host.note?_of_within hr] at hrun
      exact traced_within ih n hr h t hhook result h' hrun
    · rw [show h.note? k (.refresh k sig) = some (.forgot sig) from if_pos rfl] at hrun
      exact follows_refresh hhook hrun
    · exact follows_call ih hhook n args hrun
    · rw [show h.note? k (.hookCall k args) = h.callQuestion? k args from if_pos rfl] at hrun
      exact follows_callHook ih hhook n args hrun
    · rw [show h.note? k (.hookGraph k sig) = h.question? k sig from if_pos rfl] at hrun
      exact follows_hookGraph ih hhook hrun

/-- **The history of a program.** It gives what it gives without notes, and what becomes of the
table of the hook is what the notes say. -/
theorem history_exec (E : Embedding V.noted) (n : Nat) (p : Prog V.noted α)
    (hhook : h.hook? k = some ⟨plan, t⟩) {result : Except Fault α}
    (hrun : p.sealed.exec (noted E k n) h = some (result, h')) :
    p.sealed.exec (perform E.sealed n) (h.mapMemory unnoted) = some (result, h'.mapMemory unnoted)
      ∧ ∃ notes t', h'.hook? k = some ⟨plan, t'⟩ ∧ h'.memory.2 = h.memory.2 ++ notes
        ∧ Progress.Steps plan h.backend ⟨t, [], none⟩ notes ⟨t', [], none⟩ := by
  refine ⟨?_, ?_⟩
  · rw [exec_unnoted, hrun]
    rfl
  · obtain ⟨-, t₀, t', notes, hhook₀, hhook', hlog, hsteps⟩ :=
      traced_sealed (traced_noted E k plan n) p h t hhook result h' hrun
    obtain rfl : t = t₀ := congrArg Hook.decisions (Option.some.inj (hhook.symm.trans hhook₀))
    exact ⟨notes, t', hhook', hlog, hsteps []⟩

end Runs

end Interpose
