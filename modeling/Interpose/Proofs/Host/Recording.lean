import Interpose.Host.Perform
import Interpose.Proofs.Run.Basic

/-!
# Recorded runs

What happens in the course of a request is not to be seen in its answer. So a host is given a record
beside the memory that natives and transforms share, and every call is noted there before it is
answered: the calls of natives, and whether a call was one too many. Otherwise requests are answered
as ever.

A program may go on after a call that was refused, and may go on for ever. To say that no call is
refused, such programs are made *strict*: they end with a fault as soon as a call was refused. A
request then hits the limit if, with strict programs, it ends and a call was refused.
-/

set_option autoImplicit false

namespace Interpose

/-- What is noted in the course of a request. -/
structure Record where
  /-- The calls of natives and primitives, in order. -/
  calls : List (FuncId × List Value)
  /-- A call was refused because too many were in progress. -/
  refused : Bool

/-- The words, with a record beside the memory. -/
abbrev Vocabulary.recorded (V : Vocabulary) : Vocabulary := { V with Memory := V.Memory × Record }

/-- How many calls in progress a call of the value counts for. -/
def Value.frames : Value → Nat
  | .hook _ => 2
  | _ => 1

theorem Value.frames_pos (f : Value) : 0 < f.frames := by
  cases f with
  | hook k => exact Nat.two_pos
  | _ => exact Nat.one_pos

variable {V : Vocabulary}

namespace Host

/-- The number stands for a native or a primitive. -/
def isNative (h : Host V) (f : FuncId) : Bool :=
  match h.function? f with
  | none | some ⟨_, .source _ _⟩ => false
  | _ => true

/-- The host with another record. -/
def withRecord (h : Host V.recorded) (record : Record) : Host V.recorded :=
  { h with memory := (h.memory.1, record) }

/-- The host in which a request is noted. -/
def note (h : Host V.recorded) : Request V.recorded → Host V.recorded
  | .call callee args =>
    if h.maxDepth < h.depth + callee.frames then h.withRecord { h.memory.2 with refused := true }
    else
      match callee with
      | .func f =>
        if h.isNative f then h.withRecord { h.memory.2 with
          calls := h.memory.2.calls ++ [(f, args)] } else h
      | _ => h
  | _ => h

/-- A call was refused. -/
def Refused (h : Host V.recorded) : Prop := h.memory.2.refused = true

end Host

/-- Answers a request within some fuel, with every call noted. -/
def recorded (E : Embedding V.recorded) : Nat → (r : Request V.recorded) → Exec V.recorded r.Answer
  | 0, _ => .outOfFuel
  | n + 1, r => do
    modify (·.note r)
    serve (recorded E n) E n r

/-! ## Strict programs -/

/-- The program that ends as soon as a call was refused. -/
def Prog.strict {α : Type} : Prog V.recorded α → Prog V.recorded α
  | .done a => .done a
  | .fail e => .fail e
  | .read next => .read fun m => (next m).strict
  | .write m next => .write m next.strict
  | .ask r next => .ask r fun answer => .read fun m =>
    if m.2.refused then .fail (.trap (.callDepthExceeded 0)) else (next answer).strict

/-- The words with programs that end as soon as a call was refused. -/
def Embedding.strict (E : Embedding V.recorded) : Embedding V.recorded where
  native n args := (E.native n args).strict
  transform t o g := (E.transform t o g).strict

/-- In the course of the request a call is refused because too many are in progress. -/
def HitsLimit (E : Embedding V.recorded) (r : Request V.recorded) (h : Host V.recorded) : Prop :=
  ∃ n e h', recorded E.strict n r h = some (.error e, h') ∧ h'.Refused

/-- The call ends with the result, and these calls of natives have been recorded by then. -/
def Gives (E : Embedding V.recorded) (h : Host V.recorded) (f : Value) (args : List Value)
    (result : Except Fault Value) (calls : List (FuncId × List Value)) : Prop :=
  ∃ n h', recorded E n (.call f args) h = some (result, h') ∧ h'.memory.2.calls = calls

/-! ## Single steps -/

namespace Exec

variable {α : Type}

theorem ask_apply (f : Host V → Except Fault α) (h : Host V) : Exec.ask f h = some (f h, h) := rfl

theorem change_apply (f : Host V → Except Fault (Host V × α)) (h : Host V) :
    Exec.change f h = match f h with
      | .error e => some (.error e, h)
      | .ok (h', a) => some (.ok a, h') := by
  have hrun : Exec.change f h = (Run.ofExcept (f h) >>= fun p => do set p.1; return p.2) h := rfl
  rw [hrun, Run.bind_apply, Run.ofExcept_apply]
  rcases f h with e | ⟨h', a⟩
  · rfl
  · rfl

theorem observe_apply (x : Exec V α) (h : Host V) :
    Run.observe x h = (x h).map fun p => (.ok p.1, p.2) := rfl

/-- A call that is not one too many runs with one more call in progress, however it ends. -/
theorem entered_apply (x : Exec V α) {h : Host V} (hroom : h.depth < h.maxDepth) :
    Exec.entered x h = (x { h with depth := h.depth + 1 }).map fun p =>
      (p.1, { p.2 with depth := p.2.depth - 1 }) := by
  have hrun : Exec.entered x h = (Run.observe x >>= fun result => do
      modify fun h => { h with depth := h.depth - 1 }
      Run.ofExcept result : Exec V α) { h with depth := h.depth + 1 } := by
    unfold Exec.entered
    rw [Run.bind_apply, Run.get_apply]
    dsimp only
    rw [if_neg (Nat.not_le.2 hroom)]
    rfl
  rw [hrun, Run.bind_apply, observe_apply]
  rcases x { h with depth := h.depth + 1 } with _ | ⟨r, h'⟩
  · rfl
  · rfl

/-- A call too many does not begin. -/
theorem entered_refused (x : Exec V α) {h : Host V} (hfull : h.maxDepth ≤ h.depth) :
    Exec.entered x h = some (.error (.trap (.callDepthExceeded h.maxDepth)), h) := by
  unfold Exec.entered
  rw [Run.bind_apply, Run.get_apply]
  dsimp only
  rw [if_pos hfull]
  rfl

/-- A call that enters twice has to have room for two. -/
theorem entered_twice (x : Exec V α) {h : Host V} (hroom : h.depth + 2 ≤ h.maxDepth) :
    Exec.entered (Exec.entered x) h
      = (x { h with depth := h.depth + 2 }).map fun p =>
        (p.1, { p.2 with depth := p.2.depth - 2 }) := by
  have hfirst : h.depth < h.maxDepth := by omega
  have hsecond : h.depth + 1 < h.maxDepth := by omega
  rw [entered_apply _ hfirst, entered_apply x hsecond]
  rcases x { h with depth := h.depth + 2 } with _ | ⟨r, h'⟩
  · rfl
  · rfl

/-- Where there is room for one only, this one is given back. -/
theorem entered_twice_refused (x : Exec V α) {h : Host V} (hfull : h.maxDepth < h.depth + 2) :
    Exec.entered (Exec.entered x) h = some (.error (.trap (.callDepthExceeded h.maxDepth)), h) := by
  by_cases hfirst : h.depth < h.maxDepth
  · rw [entered_apply _ hfirst, entered_refused x (show h.maxDepth ≤ h.depth + 1 by omega)]
    rfl
  · exact entered_refused _ (Nat.not_lt.1 hfirst)

end Exec

/-! ## Calls -/

section Calls

variable (again : (r : Request V) → Exec V r.Answer) (E : Embedding V) (n : Nat) (f : Value)
  (args : List Value)

/-- What a call runs once it has entered the host. -/
def calleeBody : Exec V Value :=
  match f with
  | .func f => callFunction again E n f args
  | .hook k => callHook again E n k args
  | v => throw (.trap (.notCallable v.typeOf))

/-- **A call for which there is room** runs its callee with as many calls more in progress as it
counts for, and gives them back however it ends. -/
theorem callValue_entered {h : Host V} (hroom : h.depth + f.frames ≤ h.maxDepth) :
    callValue again E n f args h
      = (calleeBody again E n f args { h with depth := h.depth + f.frames }).map fun p =>
      (p.1, { p.2 with depth := p.2.depth - f.frames }) := by
  cases f with
  | hook k => exact Exec.entered_twice _ hroom
  | _ => exact Exec.entered_apply _ hroom

/-- **A call for which there is no room** ends with a fault before anything of its callee has
run. -/
theorem callValue_refused {h : Host V} (hfull : h.maxDepth < h.depth + f.frames) :
    callValue again E n f args h = some (.error (.trap (.callDepthExceeded h.maxDepth)), h) := by
  cases f with
  | hook k => exact Exec.entered_twice_refused _ hfull
  | _ => exact Exec.entered_refused _ (Nat.lt_succ_iff.1 hfull)

end Calls

end Interpose
