import Interpose.Proofs.Graph.Thinned
import Interpose.Proofs.Pass.Result

/-!
# Substitutions that form a cycle

A pass refuses to substitute a variable for itself, but not to close a cycle over several variables.
Such a cycle has no end that its uses could be redirected to, so a variable of it is still read in
the result, and which one depends on how many substitutions there are altogether. Everywhere else a
chain is followed to its end. There a substituted variable is not read any more, and what stands in
its place depends on nothing but its chain.
-/

set_option autoImplicit false

namespace Interpose

namespace EditPass

variable {next : Variable → Option Operand} {t : Table Variable Operand} {op e : Operand}
  {u v w : Variable}

/-! ## What a chain decides -/

/-- A chain with an end leads to no cycle. -/
theorem EndsAt.no_cycle (h : EndsAt next op e) (hv : op.var? = some v) (hlead : Leads next v w) :
    ¬OnCycle next w := by
  intro hcycle
  induction h generalizing v with
  | stop hstop =>
    have hnone := hstop v hv
    -- nothing leads away from where the chain stops
    have hstuck : ∀ u, ¬Hops next v u := by
      intro u hhop
      simp [Hops, hnone] at hhop
    rcases Relation.ReflTransGen.cases_head hlead with hsame | ⟨u, hhop, -⟩
    · obtain ⟨u, hhop, -⟩ := Relation.TransGen.head'_iff.1 hcycle
      exact hstuck u (hsame ▸ hhop)
    · exact hstuck u hhop
  | @hop v' target _ hnext _ ih =>
    have hv' : v' = v := Option.some.inj hv
    have htarget : ∀ u, Hops next v u → target.var? = some u := by
      intro u hhop
      have hsame : target = .var u := Option.some.inj (hnext.symm.trans (hv' ▸ hhop))
      rw [hsame]
      rfl
    rcases Relation.ReflTransGen.cases_head hlead with hsame | ⟨u, hhop, hrest⟩
    · obtain ⟨u, hhop, hback⟩ := Relation.TransGen.head'_iff.1 hcycle
      rw [← hsame] at hhop hback
      exact ih (htarget u hhop) (hsame ▸ hback)
    · exact ih (htarget u hhop) hrest

/-- A chain that comes to no cycle is followed to its end. -/
theorem endsAt_of_no_cycle (h : ∀ w, Leads t.get? v w → ¬OnCycle t.get? w) :
    EndsAt t.get? (.var v) (redirect t (.var v)) := by
  refine (redirect_cases t (.var v)).resolve_right ?_
  rintro ⟨v', w, hv, -, hlead, hcycle⟩
  have hsame : v = v' := Operand.var.inj hv
  exact h w (hsame ▸ hlead) hcycle

/-- A chain that comes to a cycle is followed to a variable of the cycle. -/
theorem redirect_onCycle (hlead : Leads t.get? v w) (hcycle : OnCycle t.get? w) :
    ∃ u, redirect t (.var v) = .var u ∧ Leads t.get? v u ∧ OnCycle t.get? u := by
  rcases redirect_cases t (.var v) with hend | ⟨v', u, hv, hu, hlead', hcycle'⟩
  · exact absurd hcycle (hend.no_cycle rfl hlead)
  · have hsame : v = v' := Operand.var.inj hv
    exact ⟨u, hu, hsame ▸ hlead', hcycle'⟩

/-- What an operand becomes is redirected only if it stands on a cycle. -/
theorem onCycle_of_redirected (hu : (redirect t op).var? = some u) (hsome : t.get? u ≠ none) :
    OnCycle t.get? u := by
  rcases redirect_cases t op with hend | ⟨v, w, -, hw, -, hcycle⟩
  · exact absurd (hend.next_eq_none u hu) hsome
  · rw [hw] at hu
    have hsame : w = u := Option.some.inj hu
    exact hsame ▸ hcycle

/-! ## What is read in the end -/

variable {g g' : Graph} {p : EditPass} {es : List Event} {resolve : Operand → Operand}

/-- Whatever an edited block reads is what some operand has become. -/
theorem EditedBlock.exists_of_mem_uses {b b' : Block} (h : EditedBlock es resolve b b')
    (hu : u ∈ b'.uses) : ∃ op, (resolve op).var? = some u := by
  rcases List.mem_append.1 hu with hbody | hbranches
  · rw [h.body] at hbody
    obtain ⟨entry', hentry', hread⟩ := List.mem_flatMap.1 hbody
    obtain ⟨entry, -, rfl⟩ := List.mem_map.1 hentry'
    obtain ⟨op, -, hop⟩ := exists_of_mem_uses_map hread
    exact ⟨op, hop⟩
  · obtain ⟨br', hbr', hread⟩ := List.mem_flatMap.1 hbranches
    obtain ⟨br, -, hedited⟩ :=
      Graph.exists_mem_of_forall₂ (List.Forall₂.flip (R := flip _) h.branches) hbr'
    obtain ⟨op, -, hop⟩ := EditedBranch.exists_of_mem_uses hedited hread
    exact ⟨op, hop⟩

/-- A result has the blocks of its graph, each with what was made of it, whether the chains have
ends or not. -/
theorem Recorded.edited_of_finish (h : Recorded g p es) (hg : g.Coherent)
    (hfinish : p.finish = .ok g') :
    List.Forall₂ (EditedBlock es (redirect p.redirects)) g.blocks.toList g'.blocks.toList := by
  obtain ⟨blocks, hblocks, rfl, -, -⟩ := EditPass.finish_eq_ok.1 hfinish
  exact (mapM_redirectBlock_eq_ok (h.tracks hg) hg).1 hblocks

/-- A result reads no substituted variable but those of a cycle. -/
theorem Recorded.onCycle_of_used (h : Recorded g p es) (hg : g.Coherent)
    (hfinish : p.finish = .ok g') {b : BlockId} {block : Block} (hb : g'.block? b = some block)
    (hu : u ∈ block.uses) (hsubstituted : .substituted u op ∈ es) : OnCycle (redirectOf es) u := by
  have hnext : p.redirects.get? = redirectOf es := funext (h.tracks hg).redirects
  have hmem : block ∈ g'.blocks.toList :=
    List.mem_iff_getElem?.2 ⟨b.index, by simpa [Graph.block?] using hb⟩
  obtain ⟨block₀, -, hedited⟩ :=
    Graph.exists_mem_of_forall₂
      (List.Forall₂.flip (R := flip _) (h.edited_of_finish hg hfinish)) hmem
  obtain ⟨op', hop'⟩ := EditedBlock.exists_of_mem_uses hedited hu
  obtain ⟨target, htarget⟩ := exists_redirectOf hsubstituted
  rw [← hnext] at htarget ⊢
  refine onCycle_of_redirected hop' ?_
  rw [htarget]
  exact Option.some_ne_none target

/-- **A substituted variable is gone unless its chain comes to a cycle.** Let any calls be made of a
pass over a graph. If the pass has a result, this has the blocks of the graph with what was made of
them, and the only substituted variables that a statement, a condition or an argument in it still
reads are those of a cycle. A variable whose chain comes to no cycle becomes the end of its chain,
and it becomes the same in any other pass in which the variables of the chain are redirected alike.
A variable whose chain comes to a cycle becomes a variable of that cycle. -/
theorem substituted_gone_unless_cyclic (h : Graph.Arises g) {ms : List Move}
    (hmoves : (start g).moveAll ms = (p, es)) :
    (∀ g', p.finish = .ok g' →
      List.Forall₂ (EditedBlock es (redirect p.redirects)) g.blocks.toList g'.blocks.toList
      ∧ ∀ b block, g'.block? b = some block → ∀ u ∈ block.uses, ∀ op, .substituted u op ∈ es →
        OnCycle (redirectOf es) u)
    ∧ (∀ v, (∀ w, Leads (redirectOf es) v w → ¬OnCycle (redirectOf es) w) →
      EndsAt (redirectOf es) (.var v) (redirect p.redirects (.var v))
      ∧ ∀ g₂ ms₂ p₂ es₂, Graph.Arises g₂ → (start g₂).moveAll ms₂ = (p₂, es₂) →
        (∀ w, Leads (redirectOf es) v w → redirectOf es₂ w = redirectOf es w) →
        redirect p₂.redirects (.var v) = redirect p.redirects (.var v))
    ∧ ∀ v w, Leads (redirectOf es) v w → OnCycle (redirectOf es) w →
      ∃ u, redirect p.redirects (.var v) = .var u ∧ Leads (redirectOf es) v u
        ∧ OnCycle (redirectOf es) u := by
  have hnext : ∀ {g p es ms}, Graph.Arises g → (start g).moveAll ms = (p, es) →
      Recorded g p es ∧ p.redirects.get? = redirectOf es := by
    intro g p es ms h hmoves
    have hrecorded := recorded_moveAll g ms
    rw [hmoves] at hrecorded
    exact ⟨hrecorded, funext (hrecorded.tracks h.coherent).redirects⟩
  obtain ⟨hrecorded, hredirects⟩ := hnext h hmoves
  refine ⟨fun g' hfinish => ⟨hrecorded.edited_of_finish h.coherent hfinish, ?_⟩, fun v hv => ?_, ?_⟩
  · intro b block hb u hu op hsubstituted
    exact hrecorded.onCycle_of_used h.coherent hfinish hb hu hsubstituted
  · have hend : EndsAt (redirectOf es) (.var v) (redirect p.redirects (.var v)) := by
      rw [← hredirects] at hv ⊢
      exact endsAt_of_no_cycle hv
    refine ⟨hend, fun g₂ ms₂ p₂ es₂ h₂ hmoves₂ hsame => ?_⟩
    obtain ⟨-, hredirects₂⟩ := hnext h₂ hmoves₂
    -- the chain is the same in the other pass, so it has an end there too, and a chain has one end
    have hend₂ : EndsAt (redirectOf es₂) (.var v) (redirect p.redirects (.var v)) := by
      refine hend.congr fun u hu w hlead => hsame w ?_
      have huv : v = u := Option.some.inj hu
      rw [huv]
      exact hlead
    rcases redirect_cases p₂.redirects (.var v) with hfollowed | ⟨u, w, hu, -, hlead, hcycle⟩
    · rw [hredirects₂] at hfollowed
      exact hfollowed.unique hend₂
    · rw [hredirects₂] at hlead hcycle
      exact absurd hcycle (hend₂.no_cycle (congrArg Operand.var? hu) hlead)
  · intro v w hlead hcycle
    rw [← hredirects] at hlead hcycle ⊢
    exact redirect_onCycle hlead hcycle

/-- Three parameters, of which the first is returned, and a copy of the last. -/
def threeParams : Graph where
  sites := #[.param .entry 0, .param .entry 1, .param .entry 2, .statement .entry 0]
  blocks := #[⟨[(⟨0⟩, .any), (⟨1⟩, .any), (⟨2⟩, .any)], [(⟨3⟩, .plain (.operand (.var ⟨2⟩)))],
    [.leave (.var ⟨0⟩)]⟩]
  lines := []
  provenance := none

theorem arises_threeParams : Graph.Arises threeParams :=
  have hedits : (Graph.workAll .empty [.edit (.addParam .entry .any), .edit (.addParam .entry .any),
      .edit (.addParam .entry .any), .edit (.push (.plain (.operand (.var ⟨2⟩)))),
      .edit (.leaveWith .entry (.var ⟨0⟩))]).1 = threeParams := by cbv
  hedits ▸ (Graph.Arises.initial .empty).workAll _

/-- Two substitutions that form a chain, one that is refused, and two that form a cycle. -/
def chainMoves : List Move := [
  .substitute ⟨2⟩ (.var ⟨1⟩),
  .substitute ⟨1⟩ (.const (.int 7)),
  .substitute ⟨0⟩ (.var ⟨0⟩),
  .substitute ⟨0⟩ (.var ⟨3⟩),
  .substitute ⟨3⟩ (.var ⟨0⟩)]

/-- Two substitutions that form a cycle. -/
def cycleMoves : List Move := [
  .substitute ⟨0⟩ (.var ⟨1⟩),
  .substitute ⟨1⟩ (.var ⟨0⟩)]

/-- The copy becomes one of the constant, through the chain. What is returned is still a substituted
variable, and that one stands on the cycle. -/
theorem substituted_gone_unless_cyclic_threeParams : Graph.Arises threeParams ∧ ∃ p es g',
    (start threeParams).moveAll chainMoves = (p, es) ∧ p.finish = .ok g'
      ∧ g'.statements = [(⟨3⟩, .plain (.operand (.const (.int 7))))]
      ∧ ∀ b block, g'.block? b = some block → ∀ u ∈ block.uses, ∀ op, .substituted u op ∈ es →
        OnCycle (redirectOf es) u := by
  obtain ⟨p, es, hmoves, g', hfinish, hstatements⟩ : ∃ p es,
    (start threeParams).moveAll chainMoves = (p, es)
      ∧ ∃ g', p.finish = .ok g' ∧ g'.statements = [(⟨3⟩, .plain (.operand (.const (.int 7))))] :=
    ⟨_, _, by cbv, _, by cbv, by cbv⟩
  exact ⟨arises_threeParams, p, es, g', hmoves, hfinish, hstatements,
    ((substituted_gone_unless_cyclic arises_threeParams hmoves).1 g' hfinish).2⟩

/-- A variable with a substitution is read in the result, and another one if a variable that is
nowhere on the cycle is substituted as well. -/
theorem substituted_survives_on_cycle : Graph.Arises threeParams
    ∧ (∃ p es g' block, (start threeParams).moveAll cycleMoves = (p, es) ∧ p.finish = .ok g'
      ∧ g'.block? .entry = some block ∧ ⟨1⟩ ∈ block.uses ∧ .substituted ⟨1⟩ (.var ⟨0⟩) ∈ es
      ∧ redirect p.redirects (.var ⟨0⟩) = .var ⟨1⟩)
    ∧ ∃ p es g' block,
      (start threeParams).moveAll (cycleMoves ++ [.substitute ⟨2⟩ (.const (.int 7))]) = (p, es)
        ∧ p.finish = .ok g'
        ∧ g'.block? .entry = some block ∧ ⟨0⟩ ∈ block.uses ∧ .substituted ⟨0⟩ (.var ⟨1⟩) ∈ es
        ∧ redirect p.redirects (.var ⟨0⟩) = .var ⟨0⟩ := by
  refine ⟨arises_threeParams, ⟨_, _, _, _, by cbv, by cbv, by cbv, ?_, ?_, by cbv⟩,
    ⟨_, _, _, _, by cbv, by cbv, by cbv, ?_, ?_, by cbv⟩⟩
  · simp [Block.uses, Branch.uses, Operand.var?]
  · simp
  · simp [Block.uses, Branch.uses, Operand.var?]
  · simp

end EditPass

end Interpose
