import Interpose.Proofs.Host.Kept

/-!
# How deep calls go

A host counts the calls in progress and refuses one too many. The count is one number, which every
call raises when it enters and lowers when it leaves, with whatever happens in between: values,
faults, hooks that enter twice and may fail in between, natives that go on after a fault.

The number is right at every moment. Let a request be answered, and let requests come up on the way,
one in the course of the other. All but the last are in progress when the last one is made, and what
the host counts then is what the calls among them count for. What a call may cost is thus known when
it is made, and it is refused at once if that is too much. Two facts about a single request carry
this: the requests that come up on its way do so in hosts that count it, and a host counts at its
end what it did at its beginning.
-/

set_option autoImplicit false

namespace Interpose

open Run

variable {V : Vocabulary} {α : Type}

/-! ## Requests on the way -/

/-- The request comes up on the way of a run: how it is answered in that host makes a difference. A
run that ends does not end without an answer to any request that it makes. -/
def Exec.Asks (x : ((r : Request V) → Exec V r.Answer) → Exec V α)
    (again : (r : Request V) → Exec V r.Answer) (h : Host V) (r : Request V) (h' : Host V) : Prop :=
  ∃ again' : (r : Request V) → Exec V r.Answer,
    (∀ r₁ h₁, ¬ (r₁ = r ∧ h₁ = h') → again' r₁ h₁ = again r₁ h₁) ∧ x again' h ≠ x again h

open Classical in
/-- A run that ends, and would not end if the request had no answer, makes the request. -/
theorem asks_of_ends {x : ((r : Request V) → Exec V r.Answer) → Exec V α}
    {again : (r : Request V) → Exec V r.Answer} {h h' : Host V} {r : Request V}
    (hends : x again h ≠ none) (hneeds : ∀ again' : (r : Request V) →
      Exec V r.Answer, again' r h' = none → x again' h = none) :
    Exec.Asks x again h r h' := by
  let silent : (r : Request V) → Exec V r.Answer :=
    fun r₁ h₁ => if r₁ = r ∧ h₁ = h' then none else again r₁ h₁
  refine ⟨silent, fun r₁ h₁ hne => if_neg hne, ?_⟩
  rw [hneeds silent (if_pos ⟨rfl, rfl⟩)]
  exact hends.symm

/-- While `r` is answered in `h`, the requests of the list are in progress, the last one first, and
the next one is made. Both are given with the fuel there is for them. -/
inductive Underway (E : Embedding V) (n : Nat) (r : Request V) (h : Host V) :
    List (Request V) → Nat → Request V → Host V → Prop
  | outermost : Underway E n r h [] n r h
  | nested {inProgress : List (Request V)} {m : Nat} {r' r'' : Request V} {h' h'' : Host V} :
    Underway E n r h inProgress (m + 1) r' h' →
    Exec.Asks (fun again => serve again E m r') (perform E m) h' r'' h'' →
    Underway E n r h (r' :: inProgress) m r'' h''

/-- How many calls in progress a request counts for. -/
def Request.frames : Request V → Nat
  | .call f _ => f.frames
  | _ => 0

/-- How many calls are in progress, a hook's counted twice. -/
def framesOf (inProgress : List (Request V)) : Nat := (inProgress.map Request.frames).sum

@[simp]
theorem framesOf_cons (r : Request V) (inProgress : List (Request V)) :
    framesOf (r :: inProgress) = r.frames + framesOf inProgress := rfl

/-! ## What one request does -/

/-- The host counts so many calls, of so many that it allows. -/
structure Host.Counts (depth limit : Nat) (h : Host V) : Prop where
  depth : h.depth = depth
  limit : h.maxDepth = limit

theorem install_counts {h h' : Host V} {fn : Function V} {f : FuncId}
    (hinstall : h.install fn = .ok (h', f)) : h'.depth = h.depth ∧ h'.maxDepth = h.maxDepth := by
  unfold Host.install at hinstall
  split at hinstall
  · split at hinstall
    all_goals cases hinstall
    exact ⟨rfl, rfl⟩
  · cases hinstall
  · cases hinstall
    exact ⟨rfl, rfl⟩

variable {d m : Nat}

/-- Nothing but a call that enters or leaves changes what is counted. -/
theorem firm_counts : Host.Firm (V := V) (Host.Counts d m) fun _ => True where
  install h fn h' f hh hinstall := by
    obtain ⟨hdepth, hlimit⟩ := install_counts hinstall
    exact ⟨hdepth.trans hh.depth, hlimit.trans hh.limit⟩
  setGlobal _ _ _ hh := ⟨hh.depth, hh.limit⟩
  registerHook _ _ hh := ⟨hh.depth, hh.limit⟩
  compile h g h' u hh hcompile := by
    obtain ⟨rfl, -⟩ := Host.compile_apply hcompile
    exact ⟨hh.depth, hh.limit⟩
  decisions _ _ _ _ hh := ⟨hh.depth, hh.limit⟩

variable {E : Embedding V} {again again' : (r : Request V) → Exec V r.Answer}

/-- Programs write the memory only, which is not counted. -/
theorem tying_counts (hagain : ∀ r, Tied (Host.Beside id (Host.Counts d m)) (again r) (again' r)) :
    Tying id (Host.Counts d m) (fun _ => True) E E again again' :=
  .of_memory firm_counts (fun _ _ hh => ⟨hh.depth, hh.limit⟩) hagain

theorem tied_calleeBody (hagain : ∀ r, Tied (Host.Beside id (Host.Counts d m)) (again r) (again' r))
    (n : Nat) (f : Value) (args : List Value) :
    Tied (Host.Beside id (Host.Counts d m)) (calleeBody again E n f args)
      (calleeBody again' E n f args) := by
  have htying := tying_counts (E := E) hagain
  cases f with
  | func f =>
    have hunit := firm_counts.directUnit (μ := id) fun (h : Host V) _ (hh : h.Counts d m) =>
      ⟨hh.depth, hh.limit⟩
    exact htying.callFunction hunit n f args
  | hook k => exact htying.callHook trivial n args
  | _ => exact .throw _

/-- **A request is answered by what comes up while it is counted.** The requests on the way matter
only in hosts that count it, so only if there is room for it, and the host counts at the end what it
did at the beginning. -/
theorem tied_serve (n : Nat) (r : Request V) (hagain : d + r.frames ≤ m →
      ∀ r', Tied (Host.Beside id (Host.Counts (d + r.frames) m)) (again r') (again' r'))
        (hdm : d ≤ m) :
    Tied (Host.Beside id (Host.Counts d m)) (serve again E n r) (serve again' E n r) := by
  by_cases hcall : ∃ f args, r = .call f args
  · obtain ⟨f, args, rfl⟩ := hcall
    rintro h _ ⟨rfl, hh⟩
    show Option.Rel _ (callValue again E n f args h) (callValue again' E n f args h)
    -- a call counts its frames while its body runs, and takes them back at the end
    by_cases hroom : d + f.frames ≤ m
    · have hroom' : h.depth + f.frames ≤ h.maxDepth := by
        rw [hh.depth, hh.limit]
        exact hroom
      have hentered : Host.Counts (d + f.frames) m { h with depth := h.depth + f.frames } :=
        ⟨congrArg (· + f.frames) hh.depth, hh.limit⟩
      have hbody := tied_calleeBody (E := E) (hagain hroom) n f args _ _ (.same hentered)
      rw [callValue_entered again E n f args hroom', callValue_entered again' E n f args hroom']
      generalize calleeBody again E n f args { h with depth := h.depth + f.frames } = p at hbody ⊢
      generalize calleeBody again' E n f args { h with depth := h.depth + f.frames } = q at hbody ⊢
      cases hbody with
      | none => exact .none
      | @some p q hpq =>
        obtain ⟨r₁, h₁⟩ := p
        obtain ⟨r₂, h₂⟩ := q
        obtain ⟨rfl, rfl, hh₁⟩ := hpq
        have hleft : Host.Counts d m { h₁ with depth := h₁.depth - f.frames } := by
          refine ⟨?_, hh₁.limit⟩
          show h₁.depth - f.frames = d
          rw [hh₁.depth]
          exact Nat.add_sub_cancel d f.frames
        exact .some ⟨rfl, rfl, hleft⟩
    · -- no request is made at all where there is no room
      have hfull : h.maxDepth < h.depth + f.frames := by
        rw [hh.depth, hh.limit]
        exact Nat.not_le.1 hroom
      rw [callValue_refused again E n f args hfull, callValue_refused again' E n f args hfull]
      exact .some ⟨rfl, rfl, hh⟩
  · have hframes : r.frames = 0 := by
      cases r with
      | call f args => exact absurd ⟨f, args, rfl⟩ hcall
      | _ => rfl
    rw [hframes, Nat.add_zero] at hagain
    exact (tying_counts (hagain hdm)).serve_apart n r.within_all fun f args heq => hcall
      ⟨f, args, heq⟩

/-- **Every request leaves what is counted as it was**, whatever it ends with. -/
theorem tied_perform (E : Embedding V) (n : Nat) (r : Request V) (hdm : d ≤ m) :
    Tied (Host.Beside id (Host.Counts d m)) (perform E n r) (perform E n r) := by
  induction n generalizing d r with
  | zero => exact .outOfFuel
  | succ n ih => exact tied_serve n r (fun hroom r' => ih r' hroom) hdm

/-- **A request that comes up on the way of another finds it counted**, and there was room for that
one. -/
theorem asks_counts {n : Nat} {r r' : Request V} {h h' : Host V} (hh : h.Counts d m) (hdm : d ≤ m)
    (hasks : Exec.Asks (fun again => serve again E n r) (perform E n) h r' h') :
    d + r.frames ≤ m ∧ h'.Counts (d + r.frames) m := by
  obtain ⟨again, hsame, hne⟩ := hasks
  by_contra hnot
  -- then the requests that matter are answered as ever
  have hagain : d + r.frames ≤ m →
      ∀ r₁, Tied (Host.Beside id (Host.Counts (d + r.frames) m)) (again r₁) (perform E n r₁) := by
    intro hroom r₁
    refine tied_of_same (fun h₁ hh₁ => hsame r₁ h₁ ?_) fun h₁ hh₁ _ _ hrun =>
      (tied_perform E n r₁ hroom).keeps hh₁ hrun
    rintro ⟨-, rfl⟩
    exact hnot ⟨hroom, hh₁⟩
  exact hne ((tied_serve n r hagain hdm).same hh)

/-! ## Whole calls -/

/-- **The count is right at every moment**, and never above the limit. -/
theorem Underway.counts {n k : Nat} {r r' : Request V} {h h' : Host V}
    {inProgress : List (Request V)} (hunderway : Underway E n r h inProgress k r' h')
    (hh : h.Counts d m) (hdm : d ≤ m) :
    d + framesOf inProgress ≤ m ∧ h'.Counts (d + framesOf inProgress) m := by
  induction hunderway with
  | outermost => exact ⟨hdm, hh⟩
  | @nested inProgress k r' r'' h' h'' _ hasks ih =>
    obtain ⟨hroom, hh'⟩ := ih
    have hcounts := asks_counts hh' hroom hasks
    rwa [framesOf_cons, Nat.add_comm r'.frames, ← Nat.add_assoc]

/-- Between requests from outside no call is in progress. -/
theorem Host.Reached.counts {h : Host V} (hreached : h.Reached E) : h.Counts 0 h.maxDepth := by
  induction hreached with
  | bare backend maxDepth memory => exact ⟨rfl, rfl⟩
  | create backend maxDepth memory =>
    have hcounts : Host.Counts 0 maxDepth (Host.create backend maxDepth memory) :=
      Host.create_induction (fun _ _ hh => ⟨hh.depth, hh.limit⟩) ⟨rfl, rfl⟩
    exact ⟨hcounts.depth, rfl⟩
  | @requested h h' n r result _ hrun ih =>
    have hcounts := (tied_perform E n r (Nat.zero_le _)).keeps ih hrun
    exact ⟨hcounts.depth, rfl⟩
  | remembered memory _ ih => exact ⟨ih.depth, rfl⟩

/-- **Calls are counted, bounded and given back.** Let any request be answered in a host that has
come about by requests from outside, and let `r'` be made on the way while others are in progress,
as many of them calls as you like: of source functions, natives and hooks. The host counts these
calls, a hook's twice, and they are never more than it allows. If `r'` is a call itself, it is
refused exactly if it would be one too many: then nothing of the callee has run, and otherwise its
body runs with the call counted. When `r'` has ended, with a value or a fault, the host counts what
it did before. So at the end no call is in progress, and the next call from outside finds all the
room that there is. -/
theorem calls_bounded_and_restored {h : Host V} (hreached : h.Reached E) :
    h.depth = 0 ∧ ∀ n r inProgress k r' h', Underway E n r h inProgress k r' h' →
      h'.depth = framesOf inProgress ∧ framesOf inProgress ≤ h.maxDepth ∧ h'.maxDepth = h.maxDepth
      ∧ (∀ f args, r' = .call f args → ∀ again fuel, serve again E fuel (.call f args) h' =
        if h.maxDepth < framesOf (r' :: inProgress)
        then some (.error (.trap (.callDepthExceeded h.maxDepth)), h')
        else
          (calleeBody again E fuel f args { h' with depth := framesOf (r' :: inProgress) }).map
            fun p => (p.1, { p.2 with depth := p.2.depth - f.frames }))
      ∧ ∀ result h'', perform E k r' h' = some (result, h'') → h''.depth = h'.depth
        ∧ h''.maxDepth = h.maxDepth := by
  have hh := hreached.counts
  refine ⟨hh.depth, fun n r inProgress k r' h' hunderway => ?_⟩
  obtain ⟨hroom, hh'⟩ := hunderway.counts hh (Nat.zero_le _)
  rw [Nat.zero_add] at hroom hh'
  refine ⟨hh'.depth, hroom, hh'.limit, ?_, ?_⟩
  · rintro f args rfl again fuel
    have hframes : framesOf (.call f args :: inProgress) = h'.depth + f.frames := by
      rw [hh'.depth, framesOf_cons, Nat.add_comm]
      rfl
    rw [hframes, ← hh'.limit]
    show callValue again E fuel f args h' = _
    split
    · next hfull => exact callValue_refused again E fuel f args hfull
    · next hroom => exact callValue_entered again E fuel f args (Nat.not_lt.1 hroom)
  · intro result h'' hrun
    have hh'' := (tied_perform E k r' hroom).keeps hh' hrun
    exact ⟨hh''.depth.trans hh'.depth.symm, hh''.limit⟩

/-- Every native calls the hook. -/
def nesting : Embedding ⟨Unit, Unit, Unit⟩ where
  native _ _ := Prog.request (.call (.hook ⟨0⟩) [.nothing])
  transform _ _ _ := return none

/-- A host with a native and with a hook that runs a native in place of every call. It allows four
calls. -/
def nested : Host ⟨Unit, Unit, Unit⟩ where
  functions := #[⟨"f", .native ()⟩]
  hooks := #[⟨⟨"k", [⟨.any, .native ()⟩]⟩, .empty⟩]
  globals := ⟨[("f", .func ⟨0⟩), ("k", .hook ⟨0⟩)]⟩
  compiled := .empty
  backend := ⟨true, true, false⟩
  maxDepth := 4
  depth := 0
  serial := 0
  memory := ()

theorem reached_nested : nested.Reached nesting := by
  have hnative := (Host.Reached.bare ⟨true, true, false⟩ 4 ()).requested
    (show perform nesting 1 (.defineNative "f" ()) _ = some (.ok ⟨0⟩, _) by cbv)
  exact hnative.requested
    (show perform nesting 1 (.registerHook ⟨"k", [⟨.any, .native ()⟩]⟩) _
      = some (.ok ⟨0⟩, nested) by cbv)

/-- The request that a native makes has to be answered before the native goes on. -/
theorem exec_nesting {again : (r : Request ⟨Unit, Unit, Unit⟩) → Exec _ r.Answer}
    {h : Host ⟨Unit, Unit, Unit⟩} (hnone : again (.call (.hook ⟨0⟩) [.nothing]) h = none)
    (args : List Value) : (nesting.native () args).exec again h = none := by
  show (Run.observe (again (.call (.hook ⟨0⟩) [.nothing])) >>= _) h = none
  rw [bind_apply, Exec.observe_apply, hnone]
  rfl

/-- The native calls the hook, whose native calls it again. -/
theorem underway_nested : Underway nesting 8 (.call (.func ⟨0⟩) []) nested
    [.call (.hook ⟨0⟩) [.nothing], .call (.func ⟨0⟩) []] 6 (.call (.hook ⟨0⟩) [.nothing])
    { nested with depth := 3 } := by
  have hfirst : Exec.Asks (fun again => serve again nesting 7 (.call (.func ⟨0⟩) []))
      (perform nesting 7) nested (.call (.hook ⟨0⟩) [.nothing]) { nested with depth := 1 } := by
    refine asks_of_ends (fun hnone => ?_) fun again hnone => ?_
    · have hends : (perform nesting 8 (.call (.func ⟨0⟩) []) nested).isSome = true := by cbv
      rw [show perform nesting 8 (.call (.func ⟨0⟩) []) nested = none from hnone] at hends
      cases hends
    · refine (callValue_entered again nesting 7 (.func ⟨0⟩) [] (h := nested) (by decide)).trans ?_
      exact congrArg _ (exec_nesting hnone [])
  have hsecond : Exec.Asks (fun again => serve again nesting 6 (.call (.hook ⟨0⟩) [.nothing]))
      (perform nesting 6)
      { nested with depth := 1 } (.call (.hook ⟨0⟩) [.nothing]) { nested with depth := 3 } := by
    refine asks_of_ends (fun hnone => ?_) fun again hnone => ?_
    · have hends : (perform nesting 7 (.call (.hook ⟨0⟩) [.nothing]) { nested with
          depth := 1 }).isSome = true := by cbv
      rw [show perform nesting 7 (.call (.hook ⟨0⟩) [.nothing]) { nested with depth := 1 }
        = none from hnone] at hends
      cases hends
    · refine (callValue_entered again nesting 6 (.hook ⟨0⟩) [.nothing]
        (h := { nested with depth := 1 }) (by decide)).trans ?_
      exact congrArg _ (exec_nesting hnone [.nothing])
  exact .nested (.nested .outermost hfirst) hsecond

/-- Three calls are in progress when the hook is called for the second time. There is room for one
more, and the hook would need two. So it is refused, and after the first call no call is in progress
any more. -/
theorem calls_bounded_and_restored_nested : nested.Reached nesting
    ∧ Underway nesting 8 (.call (.func ⟨0⟩) []) nested
      [.call (.hook ⟨0⟩) [.nothing], .call (.func ⟨0⟩) []] 6
      (.call (.hook ⟨0⟩) [.nothing]) { nested with depth := 3 }
    ∧ framesOf (V := ⟨Unit, Unit, Unit⟩) [.call (.hook ⟨0⟩) [.nothing], .call (.func ⟨0⟩) []] = 3
    ∧ perform nesting 6 (.call (.hook ⟨0⟩) [.nothing]) { nested with depth := 3 }
      = some (.error (.trap (.callDepthExceeded 4)), { nested with depth := 3 })
    ∧ ∃ e h', perform nesting 8 (.call (.func ⟨0⟩) []) nested = some (.error e, h')
      ∧ h'.depth = 0 := by
  obtain ⟨hrest, hmoments⟩ := calls_bounded_and_restored reached_nested
  obtain ⟨hdepth, -, -, hcall, -⟩ := hmoments _ _ _ _ _ _ underway_nested
  obtain ⟨-, -, -, -, hrestored⟩ := hmoments 8 (.call (.func ⟨0⟩) []) _ _ _ _ .outermost
  refine ⟨reached_nested, underway_nested, hdepth.symm, ?_, ?_⟩
  · exact (hcall _ _ rfl (perform nesting 5) 5).trans (if_pos (by decide))
  · obtain ⟨e, h', hrun⟩ : ∃ e h', perform nesting 8 (.call (.func ⟨0⟩) []) nested
      = some (.error e, h') :=
      ⟨_, _, by cbv⟩
    exact ⟨e, h', hrun, (hrestored _ _ hrun).1.trans hrest⟩

end Interpose
