import Interpose.Proofs.Host.Serving

/-!
# How a hook comes to a decision

A call or an inspection that a hook leaves to a transform goes by what the hook remembers for the
signature. If it remembers nothing, it decides now: without a graph the callee is to be called as it
is, and otherwise the transform is run once and what it makes of the graph is compiled. What was
decided is remembered, and a fault leaves no trace.

Each lemma follows one function of the host from a host where the hook is there.
-/

set_option autoImplicit false

namespace Interpose

open Run

variable {V : Vocabulary}

variable {again : (r : Request V) → Exec V r.Answer} {E : Embedding V} {h : Host V} {k : HookId}
  {hook : Hook V} {sig : Signature} {t : V.Transform}

/-- A hook that is there is found. -/
theorem Host.hook_of_hook? (hhook : h.hook? k = some hook) :
    h.hook k = .ok hook := by rw [Host.hook, hhook]

/-- What begins with looking up a hook goes on with it. -/
theorem ask_hook {α : Type} (hhook : h.hook? k = some hook) (f : Hook V → Exec V α) :
    (Exec.ask (·.hook k) >>= f) h = f hook h := by
  rw [bind_apply, Exec.ask_apply, Host.hook_of_hook? hhook]

/-- A hook that remembers something goes by it, and the host stays as it is. -/
theorem decide?_found (hhook : h.hook? k = some hook) {d : Decision}
    (hd : hook.decisions.get? sig = some d) : decide? again E k sig t h = some (.ok d, h) := by
  unfold decide?
  rw [ask_hook hhook, hd]
  rfl

/-- A hook that remembers nothing decides now, and remembers what it has decided unless there is a
fault. -/
theorem decide?_missing (hhook : h.hook? k = some hook) (hnone : hook.decisions.get? sig = none) :
    decide? again E k sig t h = match buildDecision again E k sig t h with
      | none => none
      | some (.error e, h') => some (.error e, h')
      | some (.ok d, h') => some (.ok d, h'.remember k sig d) := by
  unfold decide?
  rw [ask_hook hhook, hnone]
  dsimp only
  rw [bind_apply]
  rcases buildDecision again E k sig t h with _ | ⟨_ | d, h'⟩
  · rfl
  · rfl
  · rfl

theorem buildDecision_of_error {e : GraphError} (hp : h.provenance sig = .error e) :
    buildDecision again E k sig t h = some (.ok .direct, h) := by
  unfold buildDecision
  rw [get_bind_apply, hp]
  rfl

/-- A transform is run once, on the graph of the function, and what it gives is compiled. -/
theorem buildDecision_of_ok {p : Provenance} (hp : h.provenance sig = .ok p) {g : Graph}
    (hg : lower p = .ok g) :
    buildDecision again E k sig t h = match (E.transform t ⟨k, sig⟩ g).exec again h with
      | none => none
      | some (.error e, h') => some (.error e, h')
      | some (.ok none, h') => some (.ok .direct, h')
      | some (.ok (some g'), h') => match h'.compile g' with
        | .error e => some (.error e, h')
        | .ok (h'', u) => some (.ok (.unit u), h'') := by
  have hlowered : (Run.ofGraph (lower p) : Exec V Graph) h = some (.ok g, h) := by
    rw [hg]
    rfl
  unfold buildDecision
  rw [get_bind_apply, hp]
  dsimp only
  rw [bind_apply, hlowered]
  dsimp only
  rw [bind_apply]
  -- the four ways in which the transform may end
  rcases (E.transform t ⟨k, sig⟩ g).exec again h with _ | ⟨_ | _ | g', h'⟩
  · rfl
  · rfl
  · rfl
  · dsimp only
    rw [bind_apply, Exec.change_apply]
    rcases h'.compile g' with e | ⟨h'', u⟩
    · rfl
    · rfl

theorem callHook_nil (hhook : h.hook? k = some hook) (n : Nat) :
    callHook again E n k [] h = some (.error (.trap (.arityMismatch 1 0)), h) := by
  unfold callHook
  rw [ask_hook hhook]
  rfl

theorem callHook_fault (hhook : h.hook? k = some hook) {callee : Value} {rest : List Value}
    {e : Fault} (hhandler : hook.handler (.ofValues (callee :: rest)) = .error e) (n : Nat) :
    callHook again E n k (callee :: rest) h = some (.error e, h) := by
  unfold callHook
  rw [ask_hook hhook]
  dsimp only
  rw [hhandler]
  rfl

/-- A native runs in place of the call. -/
theorem callHook_native (hhook : h.hook? k = some hook) {callee : Value} {rest : List Value}
    {native : V.Native} (hhandler : hook.handler (.ofValues (callee :: rest))
      = .ok (.native native)) (n : Nat) :
    callHook again E n k (callee :: rest) h = (E.native native (callee :: rest)).exec again h := by
  unfold callHook
  rw [ask_hook hhook]
  dsimp only
  rw [hhandler, bind_apply, ofExcept_apply]

/-- A call that comes to a transform goes by what the hook decides. -/
theorem callHook_transform (hhook : h.hook? k = some hook) {callee : Value} {rest : List Value}
    (hhandler : hook.handler (.ofValues (callee :: rest)) = .ok (.transform t)) (n : Nat) :
    callHook again E n k (callee :: rest) h
      = (decide? again E k (.ofValues (callee :: rest)) t
        >>= Decision.follow again n callee rest) h := by
  unfold callHook
  rw [ask_hook hhook]
  dsimp only
  rw [hhandler, bind_apply, ofExcept_apply]
  dsimp only
  -- what is done with either decision is to follow it
  refine congrArg (fun f : Decision → Exec V Value => (decide? again E k _ t >>= f) h)
    (funext fun d => ?_)
  cases d <;> rfl

/-- A call for which something is remembered goes by it. -/
theorem callHook_hit (hhook : h.hook? k = some hook) {callee : Value} {rest : List Value}
    {d : Decision} (hhandler : hook.handler (.ofValues (callee :: rest)) = .ok (.transform t))
    (hd : hook.decisions.get? (.ofValues (callee :: rest)) = some d) (n : Nat) :
    callHook again E n k (callee :: rest) h = d.follow again n callee rest h := by
  rw [callHook_transform hhook hhandler, bind_apply, decide?_found hhook hd]

/-- A call for which nothing is remembered builds once, and goes by what it has built. -/
theorem callHook_miss (hhook : h.hook? k = some hook) {callee : Value} {rest : List Value}
    (hhandler : hook.handler (.ofValues (callee :: rest)) = .ok (.transform t))
    (hnone : hook.decisions.get? (.ofValues (callee :: rest)) = none) (n : Nat) :
    callHook again E n k (callee :: rest) h
      = match buildDecision again E k (.ofValues (callee :: rest)) t h with
        | none => none
        | some (.error e, h') => some (.error e, h')
        | some (.ok d, h') =>
          d.follow again n callee rest (h'.remember k (.ofValues (callee :: rest)) d) := by
  rw [callHook_transform hhook hhandler, bind_apply, decide?_missing hhook hnone]
  rcases buildDecision again E k (.ofValues (callee :: rest)) t h with _ | ⟨e | d, h'⟩
  · rfl
  · rfl
  · rfl

theorem hookGraph_fault (hhook : h.hook? k = some hook) {e : Fault}
    (hhandler : hook.handler sig = .error e) : hookGraph again E k sig h = some (.error e, h) := by
  unfold hookGraph
  rw [ask_hook hhook, hhandler]
  rfl

theorem hookGraph_native (hhook : h.hook? k = some hook) {native : V.Native}
    (hhandler : hook.handler sig = .ok (.native native)) :
    hookGraph again E k sig h = some (.ok none, h) := by
  unfold hookGraph
  rw [ask_hook hhook, hhandler]
  rfl

/-- The graph that a decision gives out. -/
def Decision.graph? : Decision → Option Graph
  | .unit u => u.graph?
  | .direct => none

/-- An inspection that comes to a transform goes by what the hook decides. -/
theorem hookGraph_transform (hhook : h.hook? k = some hook)
    (hhandler : hook.handler sig = .ok (.transform t)) :
    hookGraph again E k sig h = (decide? again E k sig t >>= fun d => pure d.graph?) h := by
  unfold hookGraph
  rw [ask_hook hhook, hhandler, bind_apply, ofExcept_apply]
  dsimp only
  refine congrArg (fun f : Decision → Exec V (Option Graph) => (decide? again E k sig t >>= f) h)
    (funext fun d => ?_)
  cases d <;> rfl

/-- An inspection for which something is remembered gives out its graph. -/
theorem hookGraph_hit (hhook : h.hook? k = some hook)
    (hhandler : hook.handler sig = .ok (.transform t)) {d : Decision}
    (hd : hook.decisions.get? sig = some d) :
    hookGraph again E k sig h = some (.ok d.graph?, h) := by
  rw [hookGraph_transform hhook hhandler, bind_apply, decide?_found hhook hd]
  rfl

/-- An inspection for which nothing is remembered builds once, and gives out what it has built. -/
theorem hookGraph_miss (hhook : h.hook? k = some hook)
    (hhandler : hook.handler sig = .ok (.transform t)) (hnone : hook.decisions.get? sig = none) :
    hookGraph again E k sig h = match buildDecision again E k sig t h with
      | none => none
      | some (.error e, h') => some (.error e, h')
      | some (.ok d, h') => some (.ok d.graph?, h'.remember k sig d) := by
  rw [hookGraph_transform hhook hhandler, bind_apply, decide?_missing hhook hnone]
  rcases buildDecision again E k sig t h with _ | ⟨e | d, h'⟩
  · rfl
  · rfl
  · rfl

end Interpose
