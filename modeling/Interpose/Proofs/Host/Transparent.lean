import Interpose.Proofs.Host.Kept
import Interpose.Proofs.Host.Serving

/-!
# A hook that changes nothing is not noticed

Take a hook that leaves all calls to one transform, which gives back the graph that it gets, or this
graph with its calls routed through the hook. Then a call through the hook ends as the call itself
does, and the same natives are called on the way, provided that no call through the hook is refused
for want of room: such a call counts twice.

The call through the hook is run beside the call itself. By induction on the fuel, requests that are
the same end alike, and so do a call through the hook and the call. In the second case the hook
either runs the graph that a direct call runs, but for the route of its calls, or calls directly.
The fuel of the two runs differs: what the one does by one request may take the other two.
-/

set_option autoImplicit false

namespace Interpose

open Run

variable {V : Vocabulary}

/-! ## Notes -/

namespace Interception

variable {c : Interception V} {lag : Lag} {a b : Nat}
  {again again' : (r : Request V.recorded) → Exec V.recorded r.Answer} {E : Embedding V.recorded}

/-- The same record is noted in alike hosts. -/
theorem alike_withRecord {s s' : Host V.recorded} (hs : s.Alike c a b s') {record record' : Record}
    (h : record = record') (hrefused : record.refused = false) :
    (s.withRecord record).Alike c a b (s'.withRecord record') :=
  { hs with
    memory := hs.memory
    record := h
    unrefused := hrefused
    settled := hs.settled.congr rfl rfl rfl rfl
    settled' := hs.settled'.congr rfl rfl rfl rfl }

/-- Noting a request for which there is room keeps hosts alike. -/
theorem along_note (hab : b ≤ a) (r : Request V.recorded)
    (hroom : ∀ f args, r = .call f args → a + f.frames ≤ c.limit) :
    c.Along lag a b Eq (modify (·.note r)) (modify (·.note r)) := by
  refine along_modify fun s s' hs => ?_
  unfold Host.note
  split
  · next callee args =>
    have hcall := hroom callee args rfl
    rw [if_neg (by rw [hs.maxDepth, hs.depth]; omega),
      if_neg (by rw [hs.maxDepth', hs.depth']; omega)]
    split
    · next f =>
      have hnative : s.isNative f = s'.isNative f := by
        rw [Host.isNative, Host.isNative, Host.function?_congr hs.functions]
      rw [hnative]
      split
      · exact alike_withRecord hs (by rw [hs.record]) hs.unrefused
      · exact hs
    · exact hs
  · exact hs

/-- A call for which there is no room is noted, and stops the first run. -/
theorem along_refused {β : Type} {Q : Value → β → Prop} (n : Nat) (f : Value) (args : List Value)
    (hfull : c.limit < a + f.frames) (y : Exec V.recorded β) :
    c.Along lag a b Q (modify (·.note (.call f args))
      >>= fun _ => callValue again E n f args) y := by
  intro s s' hs
  let s₁ := s.withRecord { s.memory.2 with refused := true }
  have hnote : s.note (.call f args) = s₁ := if_pos (by rw [hs.maxDepth, hs.depth]; exact hfull)
  have hfull₁ : s₁.maxDepth < s₁.depth + f.frames := by
    show s.maxDepth < s.depth + f.frames
    rw [hs.maxDepth, hs.depth]
    exact hfull
  refine .inr (.inl ⟨.trap (.callDepthExceeded s₁.maxDepth), s₁, ?_, rfl⟩)
  rw [bind_apply, modify_apply, hnote]
  exact callValue_refused again E n f args hfull₁

/-! ## One request -/

/-- The same request is answered alike. -/
theorem Serving.noted (hserving : c.Serving lag again again') (hab : b ≤ a) (hE : c.Means E)
    {m n : Nat} (hfuel : lag.Behind m n) (r : Request V.recorded) (hr : r.Modest c.hook) :
    c.Along lag a b r.Like (modify (·.note r) >>= fun _ => Interpose.serve again E.strict m r)
      (modify (·.note r) >>= fun _ => Interpose.serve again' E n r) := by
  by_cases hroom : ∀ f args, r = .call f args → a + f.frames ≤ c.limit
  · exact (along_note hab r hroom).next fun _ => hserving.serve hab hE hfuel r hr hroom
  · simp only [Classical.not_forall] at hroom
    obtain ⟨f, args, rfl, hfull⟩ := hroom
    exact along_refused m f args (Nat.not_le.1 hfull) _

/-- What a signature says about a call that has a graph. -/
theorem provenance_eq_ok {h : Host V} {f : Value} {args : List Value} {p : Provenance}
    (hp : h.provenance (.ofValues (f :: args)) = .ok p) : ∃ name, f = .func p.callee
      ∧ h.function? p.callee = some ⟨name, .source p.definition p.file⟩
      ∧ args.length = p.definition.params.length := by
  unfold Host.provenance at hp
  cases f with
  | func f =>
    have hcallee : (Signature.ofValues (.func f :: args)).callee? = some (.func f) := rfl
    rw [hcallee] at hp
    dsimp only at hp
    split at hp
    · next name d file hfunction =>
      split at hp
      · next hsize =>
        cases hp
        rw [Signature.size_ofValues, List.length_cons] at hsize
        exact ⟨name, rfl, hfunction, Nat.succ_inj.1 hsize⟩
      · cases hp
    · cases hp
  | _ => cases hp

/-- A graph that is a function's, but for the route of its calls, runs as a call of the function. -/
theorem Serving.meet_function (hserving : c.Serving lag again again') (hab : b < a) {m n : Nat}
    (hfuel : lag.Behind m n) (hroom : b < c.limit) {s s' : Host V.recorded} (hs : s.Alike c a b s')
    {f : Value} {args : List Value} {p : Provenance}
    (hp : s'.provenance (.ofValues (f :: args)) = .ok p) {g : Graph} (hlower : lower p = .ok g)
    {u : Compiled} (hu : u.graph.IsThrough c.hook g) :
    Meet lag (Host.Alike c a b) Host.Refused Eq (u.call again m args s)
      ((modify (·.note (.call f args)) >>= fun _ => Interpose.callValue again' E n f args) s') := by
  obtain ⟨name, rfl, hfunction, hargs⟩ := provenance_eq_ok hp
  have hfn : s'.function p.callee = .ok ⟨name, .source p.definition p.file⟩ := by
    rw [Host.function, hfunction]
  have hcalls : s'.depth < s'.maxDepth := by
    rw [hs.depth', hs.maxDepth']
    exact hroom
  -- the function is no native, so its call is not noted
  have hnote : s'.note (.call (.func p.callee) args) = s' := by
    have hnative : s'.isNative p.callee = false := by rw [Host.isNative, hfunction]
    have hcount : ¬s'.maxDepth < s'.depth + (Value.func p.callee).frames := Nat.not_lt.2 hcalls
    rw [Host.note, if_neg hcount]
    dsimp only
    rw [hnative]
    rfl
  rw [bind_apply, modify_apply, hnote]
  refine meet_entered hcalls ?_
  have hin := hs.enterRight
  obtain ⟨u', s₁', hunit, hgrown, hgraph⟩ :=
    hin.settled'.directUnit (Host.isSource_of_function hfn rfl)
  have hlower' := (Host.graphOf_eq_lower hfunction).symm.trans hgraph
  have hrelated := related_of_lower hlower hu hlower' rfl rfl rfl
  have hfn' : ({ s' with depth := s'.depth + 1 } : Host V.recorded).function p.callee
      = .ok ⟨name, .source p.definition p.file⟩ := hfn
  have hright : Interpose.callFunction again' E n p.callee args { s' with depth := s'.depth + 1 }
      = u'.call again' n args s₁' := Host.callFunction_apply n hfn' rfl hargs.symm hunit
  show Meet lag _ _ _ _ (Interpose.callFunction again' E n p.callee args _)
  rw [hright]
  exact hserving.unit hab hrelated hfuel args s s₁' (hin.right hgrown)

/-- **A call through the hook is answered as the call itself.** What the hook calls directly is left
to `again`. -/
theorem Serving.intercepted (hserving : c.Serving lag again again') (hab : b ≤ a) (hE : c.Means E)
    {m n : Nat} (hfuel : lag.Behind m n) (f : Value) (args : List Value)
    (hdirect : c.Along lag (a + 2) b (α := Value) Eq (again (.call f args))
      (modify (·.note (.call f args)) >>= fun _ => Interpose.callValue again' E n f args)) :
    c.Along lag a b (α := Value) Eq
      (modify (·.note (.call (.hook c.hook) (f :: args))) >>= fun _ =>
        Interpose.callValue again E.strict m (.hook c.hook) (f :: args))
      (modify (·.note (.call f args)) >>= fun _ => Interpose.callValue again' E n f args) := by
  by_cases hfull : c.limit < a + 2
  · exact along_refused m _ _ hfull _
  have hroom : a + 2 ≤ c.limit := Nat.not_lt.1 hfull
  -- the hook's call is not noted
  suffices h : c.Along lag a b (α := Value) Eq
      (Interpose.callValue again E.strict m (.hook c.hook) (f :: args))
      (modify (·.note (.call f args)) >>= fun _ => Interpose.callValue again' E n f args) by
    intro s s' hs
    have hnote : s.note (.call (.hook c.hook) (f :: args)) = s :=
      if_neg (show ¬s.maxDepth < s.depth + 2 by rw [hs.maxDepth, hs.depth]; exact hfull)
    rw [bind_apply, modify_apply, hnote]
    exact h s s' hs
  refine along_entered_left (by omega) (along_entered_left (by omega) fun s s' hs => ?_)
  obtain ⟨d, s₁, hrun, hgrown, hd⟩ :=
    hs.settled.callHook again hE.transform_strict hE.image m f args
  rw [hrun]
  unfold Host.Decides at hd
  rw [Host.provenance_congr hs.functions] at hd
  rcases hp : s'.provenance (.ofValues (f :: args)) with e | p
  all_goals rw [hp] at hd
  · obtain rfl : d = .direct := hd
    exact hdirect s₁ s' (hs.left hgrown)
  · obtain ⟨g, u, hlower, rfl, hgraph, -⟩ := hd
    exact hserving.meet_function (by omega) hfuel (by omega) (hs.left hgrown) hp hlower
      (hgraph ▸ hE.image _ g)

/-! ## Whole runs -/

end Interception

/-- The fuel that the two runs have for the same request. -/
def Lag.Suffices : Lag → Nat → Nat → Prop
  | .first, m, n => m ≤ n
  | .second, m, n => 2 * n ≤ m

/-- The fuel that the two runs have for a call through the hook and for the call. -/
def Lag.SufficesThrough : Lag → Nat → Nat → Prop
  | .first, m, n => m ≤ n
  | .second, m, n => 2 * n + 1 ≤ m

theorem Lag.suffices_of_through {m n : Nat} :
    ∀ {lag : Lag}, lag.SufficesThrough m n → lag.Suffices m n
  | .first, h => h
  | .second, h => Nat.le_of_succ_le h

namespace Interception

variable {c : Interception V} {lag : Lag} {E : Embedding V.recorded}

/-- What the two runs make of requests with so much fuel. -/
structure Answers (c : Interception V) (lag : Lag) (E : Embedding V.recorded) (m n : Nat) :
    Prop where
  same : lag.Suffices m n → ∀ a b, b ≤ a → ∀ r : Request V.recorded, r.Modest c.hook →
    c.Along lag a b r.Like (recorded E.strict m r) (recorded E n r)
  invoke : lag.Suffices m n → ∀ a b, b ≤ a → ∀ (u u' : Compiled) (args : List Value), u.Like u' →
    c.Along lag a b (α := Value) Eq (recorded E.strict m (.invoke u args))
      (recorded E n (.invoke u' args))
  through : lag.SufficesThrough m n → ∀ a b, b ≤ a → ∀ (f : Value) (args : List Value),
    c.Along lag a b (α := Value) Eq (recorded E.strict m (.call (.hook c.hook) (f :: args)))
      (recorded E n (.call f args))

theorem answers_succ (hE : c.Means E) {m n : Nat} (h : c.Answers lag E m n)
    (h' : c.Answers lag E m (n + 1)) : c.Answers lag E (m + 1) (n + 1) := by
  have hserving : lag.Suffices (m + 1) (n + 1) →
      c.Serving lag (recorded E.strict m) (recorded E n) ∧ lag.Behind m n := by
    intro hfuel
    have hless : lag.Suffices m n ∧ lag.SufficesThrough m n ∧ lag.Behind m n := by
      cases lag <;> simp only [Lag.Suffices, Lag.SufficesThrough, Lag.Behind] at hfuel ⊢ <;> omega
    exact ⟨⟨h.same hless.1, h.invoke hless.1, h.through hless.2.1⟩, hless.2.2⟩
  refine ⟨fun hfuel a b hab r hr => ?_, fun hfuel a b hab u u' args hu => ?_,
    fun hfuel a b hab f args => ?_⟩
  · obtain ⟨hserving, hbehind⟩ := hserving hfuel
    exact hserving.noted hab hE hbehind r hr
  · obtain ⟨hserving, hbehind⟩ := hserving hfuel
    exact hserving.unit hab (hu.related c.hook) hbehind args
  · have hmore : lag.Suffices (m + 1) (n + 1) ∧ lag.Suffices m (n + 1) := by
      cases lag <;> simp only [Lag.Suffices, Lag.SufficesThrough] at hfuel ⊢ <;> omega
    obtain ⟨hserving, hbehind⟩ := hserving hmore.1
    refine hserving.intercepted hab hE hbehind f args ?_
    exact h'.same hmore.2 (a + 2) b (by omega) (.call f args) trivial

/-- Where one run has no fuel, the one that lags has none. -/
theorem explains_of_zero {m n : Nat} (hzero : m = 0 ∨ n = 0) (hfuel : lag.Suffices m n)
    (r r' : Request V.recorded) (s s' : Host V.recorded) :
    lag.Explains (recorded E.strict m r s) (recorded E n r' s') := by
  cases lag with
  | first =>
    have hle : m ≤ n := hfuel
    obtain rfl : m = 0 := by omega
    rfl
  | second =>
    have hle : 2 * n ≤ m := hfuel
    obtain rfl : n = 0 := by omega
    rfl

theorem answers_of_zero {m n : Nat} (hzero : m = 0 ∨ n = 0) : c.Answers lag E m n where
  same hfuel _ _ _ _ _ s s' _ := .inl (explains_of_zero hzero hfuel _ _ s s')
  invoke hfuel _ _ _ _ _ _ _ s s' _ := .inl (explains_of_zero hzero hfuel _ _ s s')
  through hfuel _ _ _ _ _ s s' _ :=
    .inl (explains_of_zero hzero (Lag.suffices_of_through hfuel) _ _ s s')

/-- **Requests are answered alike in both runs**, and a call through the hook as the call, as long
as the run that does not lag has enough fuel. -/
theorem answers (hE : c.Means E) (m n : Nat) : c.Answers lag E m n := by
  induction m generalizing n with
  | zero => exact answers_of_zero (.inl rfl)
  | succ m ih =>
    cases n with
    | zero => exact answers_of_zero (.inr rfl)
    | succ n => exact answers_succ hE (ih n) (ih (n + 1))

/-- Two families of runs of which each one ends as the other does when it has enough fuel. -/
theorem ends_iff (result : Except Fault Value) (calls : List (FuncId × List Value))
    {x y : Nat → Option (Except Fault Value × Host V.recorded)} {a b : Nat}
    (hstop : ∀ n e s, x n = some (.error e, s) → ¬s.Refused)
    (hfirst : ∀ n, Meet .first (Host.Alike c a b) Host.Refused Eq (x n) (y n))
    (hsecond : ∀ n, ∃ m, Meet .second (Host.Alike c a b) Host.Refused Eq (x m) (y n)) :
    (∃ n s, x n = some (result, s) ∧ s.memory.2.calls = calls)
      ↔ ∃ n s, y n = some (result, s) ∧ s.memory.2.calls = calls := by
  constructor
  · rintro ⟨n, s, hx, rfl⟩
    rcases (hfirst n).of_first hx with ⟨e, s₁, hx₁, hrefused⟩ | ⟨r, s', hy, hs, hr⟩
    · exact absurd hrefused (hstop n e s₁ hx₁)
    · exact ⟨n, s', hr.eq ▸ hy, congrArg Record.calls hs.record.symm⟩
  · rintro ⟨n, s', hy, rfl⟩
    obtain ⟨m, hmeet⟩ := hsecond n
    rcases hmeet.of_second hy with ⟨e, s₁, hx₁, hrefused⟩ | ⟨r, s, hx, hs, hr⟩
    · exact absurd hrefused (hstop m e s₁ hx₁)
    · exact ⟨m, s, hr.eq ▸ hx, congrArg Record.calls hs.record⟩

end Interception

/-- A host is alike to itself, for a hook that remembers nothing yet. -/
theorem Host.Alike.refl {c : Interception V} {h : Host V.recorded} {name : String}
    (hhook : h.hook? c.hook = some ⟨⟨name, [⟨.any, .transform c.transform⟩]⟩, .empty⟩)
    (hkept : h.Kept) (hlimit : h.maxDepth = c.limit) (hsame : c.same h.memory.1 h.memory.1)
    (hunrefused : ¬h.Refused) : h.Alike c h.depth h.depth h := by
  have hsettled : h.Settled c.hook c.transform c.image :=
    ⟨hkept, ⟨_, hhook, rfl, fun sig d hd => by rw [Table.get?_empty] at hd; cases hd⟩⟩
  refine ⟨rfl, rfl, rfl, hlimit, hlimit, rfl, rfl, hsame, rfl,
    Bool.eq_false_iff.2 hunrefused, rfl, rfl, fun k _ => ?_, hsettled, hsettled⟩
  rcases hget : h.hook? k with _ | hook
  · exact .inl ⟨rfl, rfl⟩
  · exact .inr ⟨hook, hook, rfl, rfl, .refl hook⟩

/-- **A hook that changes nothing is not noticed.** The hook leaves all calls to a transform that
gives back the graph that it gets, or this graph with its calls routed through the hook; it
remembers nothing yet. What is kept for functions is their graphs, as in every host that comes about
by requests (`Host.Current.kept`). Natives and transforms may do what they like, except to define
functions, to look at what this hook remembers or to make it forget; and which compilation a graph
is the result of makes no difference to them. Then, if no call is refused in the course of a call
through the hook, that call ends with the same value or fault as the call itself, and the same
natives are called in the same order; and if one of the calls does not end, neither does the
other. -/
theorem transparent_hook (E : Embedding V.recorded) (same : V.Memory → V.Memory → Prop) (k : HookId)
    (t : V.Transform) (image : Signature → Graph → Graph) (hmodest : E.Modest same k)
    (htransform : ∀ sig g, E.transform t ⟨k, sig⟩ g = .done (some (image sig g)))
    (himage : ∀ sig g, image sig g = g ∨ image sig g = (g.routeCalls (.const (.hook k))).1)
    (h : Host V.recorded) (name : String)
    (hhook : h.hook? k = some ⟨⟨name, [⟨.any, .transform t⟩]⟩, .empty⟩) (hkept : h.Kept)
    (hsame : same h.memory.1 h.memory.1) (hunrefused : ¬h.Refused) (f : Value) (args : List Value)
    (hlimit : ¬HitsLimit E (.call (.hook k) (f :: args)) h) (result : Except Fault Value)
    (calls : List (FuncId × List Value)) :
    Gives E h (.hook k) (f :: args) result calls ↔ Gives E h f args result calls := by
  let c : Interception V := ⟨k, t, image, same, h.maxDepth⟩
  have hE : c.Means E := ⟨hmodest, htransform, himage⟩
  have halike : h.Alike c h.depth h.depth h := .refl hhook hkept rfl hsame hunrefused
  -- the run with strict programs stands between the two, since no call is refused in it
  let x (m : Nat) : Option (Except Fault Value × Host V.recorded) :=
    recorded E.strict m (.call (.hook k) (f :: args)) h
  have hstop : ∀ m e s, x m = some (.error e, s) → ¬s.Refused :=
    fun m e s hrun hrefused => hlimit ⟨m, e, s, hrun, hrefused⟩
  have hfirst (n : Nat) : c.Answers .first E n n := Interception.answers hE n n
  have hsecond (m n : Nat) : c.Answers .second E m n := Interception.answers hE m n
  have hhooked := Interception.ends_iff result calls hstop
    (fun n => (hfirst n).same (Nat.le_refl n) _ _ (Nat.le_refl _)
      (.call (.hook k) (f :: args)) trivial h h halike)
    fun n => ⟨2 * n, (hsecond (2 * n) n).same (Nat.le_refl _) _ _ (Nat.le_refl _)
      (.call (.hook k) (f :: args)) trivial h h halike⟩
  have hdirect := Interception.ends_iff result calls hstop
    (fun n => (hfirst n).through (Nat.le_refl n) _ _ (Nat.le_refl _) f args h h halike)
    fun n => ⟨2 * n + 1, (hsecond (2 * n + 1) n).through (Nat.le_refl _) _ _
      (Nat.le_refl _) f args h h halike⟩
  exact hhooked.symm.trans hdirect

/-- Words for one native, which gives back its first argument, and for one transform, which routes
all calls. -/
def routing : Embedding (⟨Unit, Unit, Unit⟩ : Vocabulary).recorded where
  native _ args := .done (args.head?.getD .nothing)
  transform _ o g := .done (some (g.routeCalls (.const (.hook o.hook))).1)

/-- A host with a function that passes its argument to the native, and with a hook for the
transform. -/
def passing : Host (⟨Unit, Unit, Unit⟩ : Vocabulary).recorded :=
  let h := Host.bare ⟨false, false, false⟩ 5 ((), ⟨[], false⟩)
  let h := (h.addFunction ⟨"pass",
    .source ⟨"pass", ["x"], [.giveBack 1 (.call (.name "first") [.name "x"])], 1⟩ "a"⟩).1
  let h := (h.addFunction ⟨"first", .native ()⟩).1
  (h.registerHook ⟨"", [⟨.any, .transform ()⟩]⟩).1

theorem reached_passing : passing.Reached routing := by
  have hsource := (Host.Reached.bare ⟨false, false, false⟩ 5 ((), ⟨[], false⟩)).requested
    (show perform routing 1 (.define "a" "fn pass(x) { return first(x) }") _
      = some (.ok [⟨0⟩], _) by cbv)
  have hnative := hsource.requested (show perform routing 1 (.defineNative "first" ()) _
    = some (.ok ⟨1⟩, _) by cbv)
  exact hnative.requested
    (show perform routing 1 (.registerHook ⟨"", [⟨.any, .transform ()⟩]⟩) _
      = some (.ok ⟨0⟩, passing) by cbv)

/-- No call is refused when the function is called through the hook, which takes all five calls that
may be in progress. -/
theorem not_hitsLimit_passing :
    ¬HitsLimit routing (.call (.hook ⟨0⟩) [.func ⟨0⟩, .bool true]) passing := by
  rintro ⟨n, e, h', hrun, hrefused⟩
  have hends : ∀ n,
      (recorded routing.strict n (.call (.hook ⟨0⟩) [.func ⟨0⟩, .bool true]) passing).all
      (fun p => !p.2.memory.2.refused) = true
    | 0 => by cbv
    | 1 => by cbv
    | 2 => by cbv
    | n + 3 => by cbv
  have hend := hends n
  rw [hrun, Option.all_some, hrefused] at hend
  cases hend

/-- The call through the hook ends like the call of the function, with the same call of the
native. -/
theorem transparent_hook_passing :
    ¬HitsLimit routing (.call (.hook ⟨0⟩) [.func ⟨0⟩, .bool true]) passing
    ∧ Gives routing passing (.hook ⟨0⟩) [.func ⟨0⟩, .bool true] (.ok (.bool true))
      [(⟨1⟩, [.bool true])] := by
  refine ⟨not_hitsLimit_passing, ?_⟩
  refine (transparent_hook routing (fun _ _ => True) ⟨0⟩ ()
    (fun _ g => (g.routeCalls (.const (.hook ⟨0⟩))).1)
    ⟨fun _ _ => .done _, fun _ _ _ => .done _⟩ (fun _ _ => rfl) (fun _ _ => .inr rfl) passing "" rfl
    reached_passing.current.kept trivial Bool.false_ne_true (.func ⟨0⟩)
    [.bool true] not_hitsLimit_passing (.ok (.bool true)) [(⟨1⟩, [.bool true])]).2 ?_
  have hend : (recorded routing 3 (.call (.func ⟨0⟩) [.bool true]) passing).map
      (fun p => (p.1, p.2.memory.2.calls))
        = some (.ok (.bool true), [(⟨1⟩, [.bool true])]) := by cbv
  obtain ⟨⟨r, h'⟩, hrun, heq⟩ := Option.map_eq_some_iff.1 hend
  obtain ⟨rfl, hcalls⟩ := Prod.mk.inj heq
  exact ⟨3, h', hrun, hcalls⟩

end Interpose
