import Interpose.Proofs.Graph.WellFormed
import Interpose.Proofs.Pass.Chains

/-!
# Copies

A statement that only passes on a variable or a constant is a copy. Its variable can do without it:
whoever reads the variable may read what is copied, or what that is a copy of in its turn, to the
end of the chain.

Two facts about a graph in order make this right. What a copy reads is bound wherever the copy is,
so the end of its chain is bound too, and no chain comes back to itself. And a variable that is
bound on every walk to a place is not about to be bound there, by a statement or by the parameters
of the block: the walk that arrives for the first time would not have bound it. So while a copy can
be read, the end of its chain is not bound anew.
-/

set_option autoImplicit false

namespace Interpose

open EditPass (EndsAt Hops Acyclic)

/-- What a statement passes on, if it is a copy of a variable or of a constant. -/
def Statement.copied? (s : Statement) : Option Operand :=
  match s.operation with
  | .operand (.var v) => some (.var v)
  | .operand (.const c) => some (.const c)
  | _ => none

theorem Statement.copied?_eq_some {s : Statement} {op : Operand} :
    s.copied? = some op ↔ s.operation = .operand op ∧ ∀ name, op ≠ .global name := by
  unfold Statement.copied?
  split
  · next v h => rw [h]; grind
  · next c h => rw [h]; grind
  · next hvar hconst =>
    refine ⟨nofun, ?_⟩
    rintro ⟨hop, hglobal⟩
    cases op with
    | var v => exact absurd hop (hvar v)
    | const c => exact absurd hop (hconst c)
    | global name => exact absurd rfl (hglobal name)

namespace Graph

variable {g : Graph} {next : Variable → Option Operand} {b d : BlockId} {block other : Block}
  {v w : Variable} {s : Statement} {i j : Nat} {before : List BlockId} {op e : Operand}

/-- Only copies are redirected, each to what it passes on. -/
def Copies (g : Graph) (next : Variable → Option Operand) : Prop :=
  ∀ v op, next v = some op → ∃ (b : BlockId) (block : Block) (i : Nat) (s : Statement),
    g.block? b = some block ∧ block.body[i]? = some (v, s) ∧ s.copied? = some op

/-! ## Where a statement's variable is bound -/

theorem Coherent.site_statement (h : g.Coherent) (hd : g.block? d = some block)
    (hj : block.body[j]? = some (v, s)) : g.site? v = some ((Row.body d).site j) := by
  refine (h v (.body d) j).2 ?_
  rw [row_body_of_block? hd, Block.bodyVars, List.getElem?_map, hj]
  rfl

theorem Coherent.mem_boundIn_statement (h : g.Coherent) (hd : g.block? d = some block)
    (hj : block.body[j]? = some (v, s)) (bs : List BlockId) : v ∈ g.boundIn bs ↔ d ∈ bs :=
  h.mem_boundIn_iff_of_site (h.site_statement hd hj) bs

theorem Coherent.mem_boundAt_statement (h : g.Coherent) (hd : g.block? d = some block)
    (hj : block.body[j]? = some (v, s)) (hb : g.block? b = some other) {i : Nat} :
    v ∈ other.boundAt (some i) ↔ d = b ∧ j < i :=
  h.mem_boundAt_iff_of_site (h.site_statement hd hj) hb

/-! ## Available variables -/

/-- The variable is bound on every walk to a place in the block. -/
def Available (g : Graph) (b : BlockId) (block : Block) (place : Option Nat) (v : Variable) :
    Prop :=
  ∀ before, g.Walk b before → v ∈ g.boundIn before ∨ v ∈ block.boundAt place

/-- What a statement binds is not available before it: the walk that arrives for the first time has
not bound it. -/
theorem Available.ne_statement (havailable : g.Available b block (some i) v) (h : g.Coherent)
    (hb : g.block? b = some block) (hreached : g.Reached b) (hi : block.body[i]? = some (w, s)) :
    v ≠ w := by
  rintro rfl
  obtain ⟨before, hw, hfirst⟩ := hreached.exists_first
  rcases havailable before hw with hmem | hmem
  · exact hfirst ((h.mem_boundIn_statement hb hi before).1 hmem)
  · exact Nat.lt_irrefl i ((h.mem_boundAt_statement hb hi hb).1 hmem).2

/-- Past a statement there is nothing new but what it binds. -/
theorem Available.before_statement (havailable : g.Available b block (some (i + 1)) v)
    (hi : block.body[i]? = some (w, s)) (hne : v ≠ w) : g.Available b block (some i) v := by
  intro before hw
  refine (havailable before hw).imp_right fun hmem => ?_
  have hbound : block.boundAt (some (i + 1)) = block.boundAt (some i) ++ [w] := by
    simp [Block.boundAt, Block.bodyVars, List.take_add_one, hi]
  rw [hbound] at hmem
  exact (List.mem_append.1 hmem).resolve_right fun hlast => hne (List.mem_singleton.1 hlast)

/-- **Along a branch** only the parameters of the block that is entered are new. -/
theorem Available.before_branch (havailable : g.Available d other (some 0) v)
    (hb : g.block? b = some block) (hd : d ∈ block.targets) (hv : v ∉ other.paramVars) :
    g.Available b block none v := by
  intro before hw
  have hmem : v ∈ g.boundIn (b :: before) := by
    refine (havailable _ (hw.step ⟨block, hb, hd⟩)).resolve_right fun hhere => hv ?_
    simpa [Block.boundAt] using hhere
  rw [boundIn, List.flatMap_cons, hb] at hmem
  exact (List.mem_append.1 hmem).symm

/-! ## Chains of copies -/

/-- What is so of a variable and is handed on from each copy to what it copies is so of the end of a
chain. -/
theorem mem_of_endsAt {P : Variable → Prop} (hstep : ∀ v w, P v → Hops next v w → P w)
    (hends : EndsAt next op e) (hop : ∀ v, op.var? = some v → P v) :
    ∀ v, e.var? = some v → P v := by
  induction hends with
  | stop => exact hop
  | @hop u op e hnext hends ih =>
    refine ih fun v hv => ?_
    obtain rfl : op = .var v := by
      cases op with
      | var w => exact congrArg Operand.var (Option.some.inj hv)
      | _ => cases hv
    exact hstep u v (hop u rfl) hnext

theorem mem_uses_of_copied? (hs : s.copied? = some op) (hv : op.var? = some v) : v ∈ s.uses := by
  rw [Statement.uses, (Statement.copied?_eq_some.1 hs).1]
  exact List.mem_filterMap.2 ⟨op, List.mem_cons_self, hv⟩

/-- What a copy passes on is the statement's own operand. -/
theorem Copies.statement (hcopies : g.Copies next) (h : g.Coherent) (hb : g.block? b = some block)
    (hi : block.body[i]? = some (v, s)) (hnext : next v = some op) : s.copied? = some op := by
  obtain ⟨d, home, j, t, hd, hj, ht⟩ := hcopies v op hnext
  obtain ⟨rfl, rfl⟩ := h.place_unique hb hi hd hj
  obtain rfl := Option.some.inj (hb.symm.trans hd)
  obtain ⟨-, rfl⟩ := Prod.mk.inj (Option.some.inj (hi.symm.trans hj))
  exact ht

/-- A parameter is no copy. -/
theorem Copies.next_param (hcopies : g.Copies next) (h : g.Coherent) (hb : g.block? b = some block)
    (hv : v ∈ block.paramVars) : next v = none := by
  refine Option.eq_none_iff_forall_ne_some.2 fun op hnext => ?_
  obtain ⟨d, home, j, s, hd, hj, -⟩ := hcopies v op hnext
  obtain ⟨k, hk⟩ := List.mem_iff_getElem?.1 hv
  rw [← row_params_of_block? hb] at hk
  exact Row.noConfusion (Agrees.unique h ((h v _ j).1 (h.site_statement hd hj)) hk).1

/-- A global is no copy, so no chain of copies ends in one. -/
theorem Copies.ne_global (hcopies : g.Copies next) (hends : EndsAt next (.var v) e)
    (name : String) : e ≠ .global name := by
  have hnone : ∀ {op e : Operand}, EndsAt next op e → (∀ name, op ≠ .global name) →
      ∀ name, e ≠ .global name := by
    intro op e hends
    induction hends with
    | stop => exact id
    | @hop v op e hnext _ ih =>
      intro _
      obtain ⟨-, -, -, s, -, -, hs⟩ := hcopies v op hnext
      exact ih (Statement.copied?_eq_some.1 hs).2
  exact hnone hends nofun name

section Chains

variable (h : g.Coherent) (hg : g.WellUsed) (hcopies : g.Copies next)

include h hg hcopies

/-- **What a copy copies is bound in the blocks that a walk has left**, if the copy is. -/
theorem Copies.boundIn (hwalk : g.Walk b before) (hv : v ∈ g.boundIn before)
    (hhop : Hops next v w) : w ∈ g.boundIn before := by
  obtain ⟨d, home, j, s, hd, hj, hs⟩ := hcopies v (.var w) hhop
  have hmem : d ∈ before := (h.mem_boundIn_statement hd hj before).1 hv
  -- the walk has come by the copy before
  obtain ⟨before', hwalk', hpart⟩ := hwalk.exists_part hmem
  have huse : w ∈ s.uses := mem_uses_of_copied? hs rfl
  rcases hg.statement d home before' hd hwalk' j v s hj w huse with hbefore | hhere
  · obtain ⟨c, hc, block, hblock, hw⟩ := mem_boundIn.1 hbefore
    exact mem_boundIn.2 ⟨c, hpart.subset (List.mem_cons_of_mem d hc), block, hblock, hw⟩
  · exact mem_boundIn.2 ⟨d, hmem, home, hd, home.boundAt_subset _ hhere⟩

/-- **What a copy copies is bound at a place**, if the copy is. -/
theorem Copies.bound (hb : g.block? b = some block) (hwalk : g.Walk b before) {place : Option Nat}
    (hv : v ∈ g.boundIn before ∨ v ∈ block.boundAt place) (hhop : Hops next v w) :
    w ∈ g.boundIn before ∨ w ∈ block.boundAt place := by
  rcases hv with hv | hv
  · exact .inl (hcopies.boundIn h hg hwalk hv hhop)
  · obtain ⟨d, home, j, s, hd, hj, hs⟩ := hcopies v (.var w) hhop
    have huse : w ∈ s.uses := mem_uses_of_copied? hs rfl
    obtain rfl : d = b :=
      (h.mem_boundVars_iff_of_site (h.site_statement hd hj) hb).1 (block.boundAt_subset _ hv)
    obtain rfl := Option.some.inj (hd.symm.trans hb)
    refine (hg.statement d home before hd hwalk j v s hj w huse).imp_right fun hhere => ?_
    cases place with
    | none => exact home.boundAt_subset _ hhere
    | some i =>
      have hlt : j < i := ((h.mem_boundAt_statement hd hj hd).1 hv).2
      rcases List.mem_append.1 hhere with hparam | hbody
      · exact List.mem_append_left _ hparam
      · exact List.mem_append_right _ (List.take_subset_take_left _ (Nat.le_of_lt hlt) hbody)

/-- **No chain of copies comes back to itself.** Where a walk arrives at a copy for the first time
all of its chain is bound already, and the copy is not. -/
theorem Copies.acyclic (hreached : ∀ b block, g.block? b = some block → g.Reached b) :
    Acyclic next := by
  intro v hcycle
  obtain ⟨w, hfirst, hrest⟩ := Relation.TransGen.head'_iff.1 hcycle
  obtain ⟨d, block, j, s, hd, hj, hs⟩ := hcopies v (.var w) hfirst
  have havailable : g.Available d block (some j) v := by
    intro before hwalk
    have huse : w ∈ s.uses := mem_uses_of_copied? hs rfl
    have hall : ∀ u, Relation.ReflTransGen (Hops next) w u →
        u ∈ g.boundIn before ∨ u ∈ block.boundAt (some j) := by
      intro u hu
      induction hu with
      | refl => exact hg.statement d block before hd hwalk j v s hj w huse
      | tail _ hhop ih => exact hcopies.bound h hg hd hwalk ih hhop
    exact hall v hrest
  exact havailable.ne_statement h hd (hreached d block hd) hj rfl

/-- What a chain ends in is available where the chain begins. -/
theorem Copies.available (hb : g.block? b = some block) {place : Option Nat}
    (hends : EndsAt next (.var v) (.var w)) (havailable : g.Available b block place v) :
    g.Available b block place w := by
  intro before hwalk
  refine mem_of_endsAt (fun u u' hu hhop => hcopies.bound h hg hb hwalk hu hhop) hends ?_ w rfl
  intro u hu
  exact Option.some.inj hu ▸ havailable before hwalk

/-- **A parameter is not bound anew under a copy.** What is available when a block is entered, and
is no parameter of it, is no copy of a parameter either. -/
theorem Copies.ne_param (hb : g.block? b = some block) (hreached : g.Reached b)
    (havailable : g.Available b block (some 0) v) (hv : v ∉ block.paramVars)
    (hends : EndsAt next (.var v) (.var w)) : w ∉ block.paramVars := by
  intro hw
  obtain ⟨before, hwalk, hfirst⟩ := hreached.exists_first
  have hbefore : v ∈ g.boundIn before := by
    refine (havailable before hwalk).resolve_right fun hmem => hv ?_
    simpa [Block.boundAt] using hmem
  have hend : w ∈ g.boundIn before := by
    refine mem_of_endsAt (fun u u' hu hhop => hcopies.boundIn h hg hwalk hu hhop) hends ?_ w rfl
    intro u hu
    exact Option.some.inj hu ▸ hbefore
  -- but the walk arrives for the first time
  obtain ⟨k, hk⟩ := List.mem_iff_getElem?.1 hw
  rw [← row_params_of_block? hb] at hk
  exact hfirst ((h.mem_boundIn_iff_of_site ((h w (.params b) k).2 hk) before).1 hend)

end Chains

end Graph

end Interpose
