import Interpose.Proofs.Compiling
import Interpose.Proofs.Graph.Outline
import Interpose.Proofs.Run.Along

/-!
# Graphs whose calls go through a hook

The graph of a function may be compiled with its calls routed through a hook. It is still in order,
so every backend takes it. Block by block it is the graph of the function, except that some calls
`f(a, b)` have become calls `hook(f, a, b)`; and these read the same operands in the same order.
-/

set_option autoImplicit false

namespace Interpose

/-- The first operation is the second, or it makes the second one's call through a hook. -/
inductive Operation.Through (k : HookId) : Operation → Operation → Prop
  | same (e : Operation) : Through k e e
  | call (callee : Operand) (args : List Operand) :
    Through k (.call (.const (.hook k)) (callee :: args)) (.call callee args)

theorem through_routed (k : HookId) (e : Operation) :
    (Graph.routed (.const (.hook k)) e).Through k e := by
  cases e with
  | operand op => exact .same _
  | call callee args =>
    rw [Graph.routed]
    split
    · exact .same _
    · exact .call callee args

namespace Graph

/-- A graph, or the graph with its calls routed through a hook. -/
def IsThrough (k : HookId) (g' g : Graph) : Prop :=
  g' = g ∨ g' = (g.routeCalls (.const (.hook k))).1

theorem related_routeCalls (g : Graph) (k : HookId) :
    (g.routeCalls (.const (.hook k))).1.Related (Operation.Through k) g where
  varCount := rfl
  self? := rfl
  blocks b := by
    rw [block?_routeCalls]
    rcases g.block? b with _ | block
    · exact .inl ⟨rfl, rfl⟩
    · refine .inr ⟨_, block, rfl, rfl, rfl, rfl,
        List.forall₂_map_left_iff.2 (List.forall₂_same.2 ?_)⟩
      exact fun e _ => ⟨rfl, through_routed k e.2.operation⟩

theorem IsThrough.related {k : HookId} {g' g : Graph} (h : g'.IsThrough k g) :
    g'.Related (Operation.Through k) g := by
  rcases h with rfl | rfl
  · refine ⟨rfl, rfl, fun b => ?_⟩
    rcases (Related.refl g').blocks b with
      hnone | ⟨block, block', hb, hb', hparams, hbranches, hbody⟩
    · exact .inl hnone
    · exact .inr ⟨block, block', hb, hb', hparams, hbranches,
        hbody.imp fun e e' he => ⟨he.1, he.2 ▸ .same _⟩⟩
  · exact related_routeCalls g k

/-- Where the graph comes from is of no account for how it runs, as long as it is the same
function. -/
theorem Related.marked {rel : Operation → Operation → Prop} {g g' : Graph} (h : g.Related rel g')
    {p : Option Provenance} (hp : p.map Provenance.callee = g'.provenance.map Provenance.callee) :
    g.Related rel { g' with provenance := p } where
  varCount := h.varCount
  self? := by
    have hself : ∀ q : Option Provenance, (q.map fun p => Value.func p.callee)
        = (q.map Provenance.callee).map .func := fun q => (Option.map_map ..).symm
    rw [h.self?, Graph.self?, Graph.self?, hself, hself, hp]
  blocks := h.blocks

end Graph

/-! ## The graphs of functions -/

theorem lower_eq_ok {p : Provenance} {g : Graph} (h : lower p = .ok g) : g.provenance = some p := by
  obtain ⟨c, hc⟩ := Chart.exists_lowers p.definition p.file
  rw [lower, hc.yields] at h
  cases h
  rfl

/-- Calls of the same function have the same graph, but for the mark of the call. -/
theorem lower_eq_marked {p p' : Provenance} (hdefinition : p.definition = p'.definition)
    (hfile : p.file = p'.file) {g : Graph} (h : lower p = .ok g) :
    lower p' = .ok { g with provenance := some p' } := by
  unfold lower at h ⊢
  rw [← hdefinition, ← hfile]
  rcases hl : lowerFunction p.definition p.file with e | g₀
  · rw [hl] at h
    cases h
  · rw [hl] at h
    cases h
    rfl

/-- The graph of a function is compiled with or without its calls routed. -/
theorem prepare_isThrough {p : Provenance} {g g' : Graph} (h : lower p = .ok g) {k : HookId}
    (hg' : g'.IsThrough k g) (backend : Backend) : backend.prepare g' = .ok g' := by
  obtain ⟨c, hc⟩ := Chart.exists_lowers p.definition p.file
  have hmarked : g = (c.marked (some p)).graph := by
    rw [lower, hc.yields] at h
    exact (Except.ok.inj h).symm
  have hcoherent : g.Coherent := hmarked ▸ hc.continues.1.sound.marked.coherent
  have hformed : g.WellFormed := hmarked ▸ hc.wellFormed (some p)
  have hreached : ∀ b, b.index < g.blocks.size → b ∈ g.reachable := hmarked ▸ hc.reachable (some p)
  rcases hg' with rfl | rfl
  · exact backend.prepare_eq_ok (hcoherent.verify_eq_ok.2 hformed) hreached
  · have hsame := g.sameOutline_routeCalls k
    refine backend.prepare_eq_ok
      ((hcoherent.routeCalls _).verify_eq_ok.2 (hformed.of_outline hsame)) ?_
    intro b hb
    exact hsame.mem_reachable (hreached b (hsame.size_blocks ▸ hb))

/-- What a hook may run for a call of a function is what a direct call of the function runs, except
that calls may go through the hook. -/
theorem related_of_lower {p p' : Provenance} {g u g' : Graph} (h : lower p = .ok g) {k : HookId}
    (hu : u.IsThrough k g) (h' : lower p' = .ok g') (hdefinition : p.definition = p'.definition)
    (hfile : p.file = p'.file) (hcallee : p.callee = p'.callee) :
    u.Related (Operation.Through k) g' := by
  obtain rfl := Except.ok.inj ((lower_eq_marked hdefinition hfile h).symm.trans h')
  refine hu.related.marked ?_
  rw [lower_eq_ok h, Option.map_some, Option.map_some, hcallee]

/-! ## Running a routed operation -/

open Run

/-- An operation runs like the one that it routes through a hook, if calls through the hook run like
calls. -/
theorem along_through {σ τ : Type} {lag : Lag} {R : σ → τ → Prop} {Stopped : σ → Prop}
    {env : Surroundings σ} {env' : Surroundings τ} {k : HookId} (h : env.Along lag R Stopped env')
    (hhook : ∀ f args, Run.Along lag R Stopped Eq (env.call (.hook k) (f :: args))
      (env'.call f args))
    (frame : Frame) {e e' : Operation} (he : e.Through k e') :
    Run.Along lag R Stopped Eq (e.eval env frame) (e'.eval env' frame) := by
  cases he with
  | same => exact along_operation h frame e
  | call callee args =>
    have hassoc : (Operation.call (.const (.hook k)) (callee :: args)).eval env frame
        = callee.eval env frame >>= fun f => Operand.evalAll env frame args >>= fun xs =>
          env.call (.hook k) (f :: xs) := by
      simp only [Operation.eval, Operand.eval, Operand.evalAll, pure_bind, bind_assoc]
    rw [hassoc]
    apply (along_operand h.global frame callee).next
    intro f
    apply (along_operands h.global frame args).next
    intro xs
    exact hhook f xs

end Interpose
