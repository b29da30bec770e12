import Interpose.Proofs.Graph.Built

/-!
# The calls of a pass as data

A caller drives a pass by one call after another. A `Move` is such a call with its arguments, and an
`Event` is what is recorded of it when it is accepted. A refused call has no effect and leaves no
event, so the events of a list of moves are the edits that count.
-/

set_option autoImplicit false

namespace Interpose

namespace EditPass

/-- The calls of a pass with their arguments. -/
inductive Move where
  | advance
  | insertBefore (v : Variable) (s : Statement)
  | insertAfter (v : Variable) (s : Statement)
  | replace (v : Variable) (s : Statement)
  | delete (v : Variable)
  | substitute (v : Variable) (op : Operand)

/-- What an accepted call has done. -/
inductive Event where
  /-- The pass went on and answered with the variable that it stands at now. -/
  | visited (answer : Option Variable)
  | before (v new : Variable) (s : Statement)
  | after (v new : Variable) (s : Statement)
  | replaced (v : Variable) (s : Statement)
  | deleted (v : Variable)
  | substituted (v : Variable) (op : Operand)

/-- The variable that was handed out. -/
def Event.handed? : Event → Option Variable
  | .before _ new _ | .after _ new _ => some new
  | _ => none

/-- The pass after a call, and what has happened. -/
def Move.run (p : EditPass) : Move → Except GraphError (EditPass × Event)
  | .advance => .ok (p.advance, .visited p.advance.current)
  | .insertBefore v s => (p.insertBefore v s).map fun (p', new) => (p', .before v new s)
  | .insertAfter v s => (p.insertAfter v s).map fun (p', new) => (p', .after v new s)
  | .replace v s => (p.replace v s).map fun p' => (p', .replaced v s)
  | .delete v => (p.delete v).map fun (p', _) => (p', .deleted v)
  | .substitute v op => (p.substitute v op).map fun p' => (p', .substituted v op)

/-- The same for any call: a refused one leaves the pass as it was. -/
def Move.apply (p : EditPass) (m : Move) : EditPass × List Event :=
  match m.run p with
  | .ok (p', e) => (p', [e])
  | .error _ => (p, [])

/-- The pass after a list of calls, with the events in order. -/
def moveAll (p : EditPass) : List Move → EditPass × List Event
  | [] => (p, [])
  | m :: ms => ((moveAll (m.apply p).1 ms).1, (m.apply p).2 ++ (moveAll (m.apply p).1 ms).2)

/-- An accepted call leaves its event before those of the calls that follow. -/
theorem moveAll_cons_of_run {p p' : EditPass} {m : Move} {e : Event} (h : m.run p = .ok (p', e))
    (ms : List Move) : p.moveAll (m :: ms) = ((p'.moveAll ms).1, e :: (p'.moveAll ms).2) := by
  rw [moveAll, Move.apply, h]
  rfl

/-- One accepted call. -/
inductive Step (p : EditPass) : EditPass → Event → Prop
  | advance : Step p p.advance (.visited p.advance.current)
  | before {p' : EditPass} {v new : Variable} {s : Statement} :
    p.insertBefore v s = .ok (p', new) → Step p p' (.before v new s)
  | after {p' : EditPass} {v new : Variable} {s : Statement} :
    p.insertAfter v s = .ok (p', new) → Step p p' (.after v new s)
  | replaced {p' : EditPass} {v : Variable} {s : Statement} :
    p.replace v s = .ok p' → Step p p' (.replaced v s)
  | deleted {p' : EditPass} {v : Variable} {old : Statement} :
    p.delete v = .ok (p', old) → Step p p' (.deleted v)
  | substituted {p' : EditPass} {v : Variable} {op : Operand} :
    p.substitute v op = .ok p' → Step p p' (.substituted v op)

/-- The passes over a graph, with the events so far. -/
inductive Recorded (g : Graph) : EditPass → List Event → Prop
  | start : Recorded g (.start g) []
  | step {p p' : EditPass} {es : List Event} {e : Event} :
    Recorded g p es → Step p p' e → Recorded g p' (es ++ [e])

variable {g : Graph} {p p' : EditPass} {e : Event} {es : List Event}

/-- A mapped result is accepted exactly if the result is. -/
theorem map_eq_ok {α β : Type} {r : Except GraphError α} {f : α → β} {b : β} :
    r.map f = .ok b ↔ ∃ a, r = .ok a ∧ f a = b := by
  rcases r with err | a
  · exact ⟨nofun, nofun⟩
  · constructor
    · intro h
      exact ⟨a, rfl, Except.ok.inj h⟩
    · rintro ⟨a', ha, rfl⟩
      cases ha
      rfl

theorem Move.step {m : Move} (h : m.run p = .ok (p', e)) : Step p p' e := by
  cases m with
  | advance =>
    cases h
    exact .advance
  | insertBefore v s =>
    obtain ⟨⟨p₁, new⟩, hinsert, heq⟩ := map_eq_ok.1 h
    cases heq
    exact .before hinsert
  | insertAfter v s =>
    obtain ⟨⟨p₁, new⟩, hinsert, heq⟩ := map_eq_ok.1 h
    cases heq
    exact .after hinsert
  | replace v s =>
    obtain ⟨p₁, hreplace, heq⟩ := map_eq_ok.1 h
    cases heq
    exact .replaced hreplace
  | delete v =>
    obtain ⟨⟨p₁, old⟩, hdelete, heq⟩ := map_eq_ok.1 h
    cases heq
    exact .deleted hdelete
  | substitute v op =>
    obtain ⟨p₁, hsubstitute, heq⟩ := map_eq_ok.1 h
    cases heq
    exact .substituted hsubstitute

/-- Any calls lead from one recorded pass to the next. -/
theorem Recorded.moveAll (h : Recorded g p es) (ms : List Move) :
    Recorded g (p.moveAll ms).1 (es ++ (p.moveAll ms).2) := by
  induction ms generalizing p es with
  | nil => simpa [EditPass.moveAll] using h
  | cons m ms ih =>
    have hone : Recorded g (m.apply p).1 (es ++ (m.apply p).2) := by
      unfold Move.apply
      rcases hrun : m.run p with _ | ⟨p', e⟩
      · simpa using h
      · exact h.step (Move.step hrun)
    rw [EditPass.moveAll, ← List.append_assoc]
    exact ih hone

theorem recorded_moveAll (g : Graph) (ms : List Move) :
    Recorded g ((start g).moveAll ms).1 ((start g).moveAll ms).2 := Recorded.start.moveAll ms

/-- A recorded pass is one of the states of a pass. -/
theorem Recorded.passed (h : Recorded g p es) : Passed g p := by
  induction h with
  | start => exact .start
  | step _ hstep ih =>
    cases hstep with
    | advance => exact ih.advance
    | before h => exact ih.insertBefore h
    | after h => exact ih.insertAfter h
    | replaced h => exact ih.replace h
    | deleted h => exact ih.delete h
    | substituted h => exact ih.substitute h

/-! ## What is handed out -/

/-- A step changes nothing in the graph of the pass but the counter, which goes up by the variable
that is handed out. -/
theorem Step.source (h : Step p p' e) :
    p'.source.blocks = p.source.blocks ∧ p'.source.lines = p.source.lines
      ∧ p'.source.provenance = p.source.provenance
    ∧ p'.varCount = p.varCount + e.handed?.toList.length ∧ ∀ v ∈ e.handed?, v = p.source.fresh := by
  cases h with
  | advance =>
    have hsource : p.advance.source = p.source := by
      rw [EditPass.advance, source_seek, source_flush]
    rw [varCount, varCount, hsource]
    exact ⟨rfl, rfl, rfl, rfl, fun v hv => by cases hv⟩
  | before h =>
    obtain ⟨-, rfl, rfl⟩ := insertBefore_eq_ok.1 h
    exact ⟨rfl, rfl, rfl, Array.size_push _, fun v hv => (Option.some.inj hv).symm⟩
  | after h =>
    obtain ⟨-, rfl, rfl⟩ := insertAfter_eq_ok.1 h
    exact ⟨rfl, rfl, rfl, Array.size_push _, fun v hv => (Option.some.inj hv).symm⟩
  | replaced h =>
    obtain ⟨-, rfl⟩ := replace_eq_ok.1 h
    exact ⟨rfl, rfl, rfl, rfl, fun v hv => by cases hv⟩
  | deleted h =>
    obtain ⟨-, -, rfl⟩ := delete_eq_ok.1 h
    exact ⟨rfl, rfl, rfl, rfl, fun v hv => by cases hv⟩
  | substituted h =>
    obtain ⟨-, -, rfl⟩ := substitute_eq_ok.1 h
    exact ⟨rfl, rfl, rfl, rfl, fun v hv => by cases hv⟩

/-- **A pass hands out the numbers from the counter of its graph on**, in order and without gaps. -/
theorem Recorded.handed (h : Recorded g p es) :
    es.filterMap Event.handed?
        = (List.range' g.varCount (es.filterMap Event.handed?).length).map .mk
      ∧ p.varCount = g.varCount + (es.filterMap Event.handed?).length := by
  induction h with
  | start => exact ⟨rfl, rfl⟩
  | @step p p' es e _ hstep ih =>
    obtain ⟨hlist, hcount⟩ := ih
    obtain ⟨-, -, -, hcount', hfresh⟩ := hstep.source
    rw [List.filterMap_append, List.filterMap_cons, List.filterMap_nil]
    rcases hhanded : e.handed? with _ | v
    · rw [hhanded] at hcount'
      simp only [List.append_nil]
      exact ⟨hlist, hcount'.trans hcount⟩
    · rw [hhanded] at hcount' hfresh
      have hv : v = ⟨g.varCount + (es.filterMap Event.handed?).length⟩ := by
        rw [hfresh v rfl, Graph.fresh]
        exact congrArg Variable.mk hcount
      refine ⟨?_, ?_⟩
      · rw [List.length_append, List.length_singleton, List.range'_concat, List.map_append,
          ← hlist, hv]
        simp
      · rw [hcount', hcount, List.length_append]
        rfl

/-- The graph that a pass makes has the counter of the pass. -/
theorem varCount_finish {g' : Graph} (h : p.finish = .ok g') : g'.varCount = p.varCount := by
  obtain ⟨blocks, -, rfl, -, -⟩ := finish_eq_ok.1 h
  rw [Graph.varCount, Graph.renumbered, Graph.size_sitesOf]
  simp only [Graph.varCount, assembled, source_flush, varCount]

end EditPass

end Interpose
