import Mathlib.Data.List.Flatten
import Interpose.Graph.Prune
import Interpose.Proofs.Graph.Edits
import Interpose.Proofs.Graph.Walk

/-!
# Every edit keeps the table in agreement with the blocks

The table is kept up in three ways. An insertion and a removal number the rest of one row again, for
which `Agrees.insert` and `Agrees.erase` are the arguments. Edits that bind no other variables than
before leave it as it is. Pruning and canonical numbering read it off the blocks from the start.
-/

set_option autoImplicit false

namespace Interpose

namespace Graph

variable {g g' : Graph}

/-! ## Edits that bind the same variables -/

theorem row_params (g : Graph) (b : BlockId) :
    g.row (.params b) = ((g.block? b).map Block.paramVars).getD [] := by
  rw [row]
  cases g.block? b <;> rfl

theorem row_body (g : Graph) (b : BlockId) :
    g.row (.body b) = ((g.block? b).map Block.bodyVars).getD [] := by
  rw [row]
  cases g.block? b <;> rfl

/-- A graph with the same table and the same variables at the same places is as coherent as the
other. -/
theorem Coherent.of_vars (h : g.Coherent) (hsites : g'.sites = g.sites)
    (hparams : ∀ b, (g'.block? b).map Block.paramVars = (g.block? b).map Block.paramVars)
    (hbody : ∀ b, (g'.block? b).map Block.bodyVars = (g.block? b).map Block.bodyVars) :
    g'.Coherent := by
  have hrow : g'.row = g.row := by
    funext r
    cases r with
    | params b => rw [row_params, row_params, hparams]
    | body b => rw [row_body, row_body, hbody]
  unfold Coherent
  rw [hsites, hrow]
  exact h

/-- A change of one block that binds the same variables keeps coherence. -/
theorem Coherent.modifyBlock (h : g.Coherent) (b : BlockId) {f : Block → Block}
    (hparams : ∀ block, (f block).paramVars = block.paramVars)
    (hbody : ∀ block, (f block).bodyVars = block.bodyVars) : (g.modifyBlock b f).Coherent := by
  refine h.of_vars rfl (fun c => ?_) fun c => ?_
  all_goals
    rw [block?_modifyBlock]
    by_cases hbc : b = c
    · rw [if_pos hbc]
      cases g.block? c with
      | none => rfl
      | some block => simp [hparams, hbody]
    · rw [if_neg hbc]

/-- The new graph has one block, which binds nothing. -/
theorem coherent_empty : Graph.empty.Coherent := by
  intro v r i
  refine ⟨fun h => ?_, fun h => ?_⟩
  · simp [Graph.empty] at h
  · have hnil : Graph.empty.row r = [] := by
      rcases r with ⟨⟨_ | n⟩⟩ | ⟨⟨_ | n⟩⟩ <;> rfl
    rw [hnil] at h
    simp at h

theorem Coherent.addBlock (h : g.Coherent) : g.addBlock.1.Coherent := by
  have hrow : g.addBlock.1.row = g.row := by
    funext r
    have hnone : ∀ b : BlockId, b.index = g.blocks.size → g.block? b = none := fun b hb => by
      rw [block?, Array.getElem?_eq_none (Nat.le_of_eq hb.symm)]
    cases r with
    | params b =>
      rw [row_params, row_params, block?_addBlock]
      split
      · next hb => rw [hnone b hb]; rfl
      · rfl
    | body b =>
      rw [row_body, row_body, block?_addBlock]
      split
      · next hb => rw [hnone b hb]; rfl
      · rfl
  unfold Coherent
  rw [hrow]
  exact h

/-! ## Edits of one row

A row is split at the position of the edit, so that the edit and the numbering after it are seen to
begin at the same place. -/

theorem insertIdx_append {α : Type} (front back : List α) (a : α) :
    (front ++ back).insertIdx front.length a = front ++ a :: back := by
  induction front with
  | nil => rfl
  | cons x front ih => rw [List.cons_append, List.length_cons, List.insertIdx_succ_cons, ih,
      List.cons_append]

theorem modify_append {α : Type} (front back : List α) (a : α) (f : α → α) :
    (front ++ a :: back).modify front.length f = front ++ f a :: back := by
  induction front with
  | nil => rfl
  | cons x front ih =>
    rw [List.cons_append, List.length_cons, List.modify_succ_cons, ih, List.cons_append]

theorem eraseIdx_append {α : Type} (front back : List α) (a : α) :
    (front ++ a :: back).eraseIdx front.length = front ++ back := by
  rw [List.eraseIdx_append_of_length_le (Nat.le_refl _), Nat.sub_self, List.eraseIdx_cons_zero]

/-- A list is split at an entry by the entry's position. -/
theorem exists_append_cons_of_getElem? {α : Type} {l : List α} {i : Nat} {a : α}
    (h : l[i]? = some a) : ∃ front back, l = front ++ a :: back ∧ front.length = i := by
  obtain ⟨hlt, hget⟩ := List.getElem?_eq_some_iff.1 h
  refine ⟨l.take i, l.drop (i + 1), ?_, List.length_take_of_le (Nat.le_of_lt hlt)⟩
  rw [← hget, ← List.drop_eq_getElem_cons hlt, List.take_append_drop]

theorem Coherent.inserted (h : g.Coherent) {b : BlockId} {block : Block}
    (hb : g.block? b = some block) {position : Nat} (hle : position ≤ block.body.length)
    (s : Statement) : (g.inserted b position s).Coherent := by
  obtain ⟨front, back, hbody, rfl⟩ : ∃ front back, block.body = front ++ back
    ∧ front.length = position :=
    ⟨_, _, (List.take_append_drop position _).symm, List.length_take_of_le hle⟩
  have hnew : block.body.insertIdx front.length (g.fresh, s) = front ++ (g.fresh, s) :: back := by
    rw [hbody, insertIdx_append]
  -- the variable is handed out with its site, and what stands behind it in the row moves by one
  have hsites : (g.inserted b front.length s).sites
      = number (.statement b) (front.map Prod.fst).length (g.fresh :: back.map Prod.fst)
          (g.sites.push (.statement b front.length)) := by
    simp [Graph.inserted, hb, hnew]
  unfold Coherent
  rw [hsites]
  refine Agrees.insert h (.body b) _ _ ?_ _ ?_ ?_ _
  · rw [row_body_of_block? hb, Block.bodyVars, hbody, List.map_append]
  · intro r hr
    cases r with
    | params c =>
      rw [row_params, row_params, block?_inserted]
      split
      · cases g.block? c <;> rfl
      · rfl
    | body c =>
      have hbc : b ≠ c := fun hbc => hr (congrArg Row.body hbc.symm)
      rw [row_body, row_body, block?_inserted, if_neg hbc]
  · rw [row_body, block?_inserted, if_pos rfl, hb]
    simp only [Option.map_some, Option.getD_some, Block.bodyVars, hnew, List.map_append,
      List.map_cons]
    rfl

theorem Coherent.withParam (h : g.Coherent) {b : BlockId} {block : Block}
    (hb : g.block? b = some block) {position : Nat} (hle : position ≤ block.params.length) (ty : Ty)
    (default : Operand) : (g.withParam b position ty default).Coherent := by
  obtain ⟨front, back, hparams, rfl⟩ :
      ∃ front back, block.params = front ++ back ∧ front.length = position :=
    ⟨_, _, (List.take_append_drop position _).symm, List.length_take_of_le hle⟩
  have hnew : block.params.insertIdx front.length (g.fresh, ty)
      = front ++ (g.fresh, ty) :: back := by
    rw [hparams, insertIdx_append]
  -- as for a statement, but in the row of the parameters
  have hsites : (g.withParam b front.length ty default).sites
      = number (.param b) (front.map Prod.fst).length (g.fresh :: back.map Prod.fst)
          (g.sites.push (.param b front.length)) := by
    simp [Graph.withParam, hb, hnew]
  unfold Coherent
  rw [hsites]
  refine Agrees.insert h (.params b) _ _ ?_ _ ?_ ?_ _
  · rw [row_params_of_block? hb, Block.paramVars, hparams, List.map_append]
  · intro r hr
    cases r with
    | params c =>
      have hbc : b ≠ c := fun hbc => hr (congrArg Row.params hbc.symm)
      rw [row_params, row_params, block?_withParam]
      simp only [if_neg hbc]
      cases g.block? c <;> rfl
    | body c =>
      rw [row_body, row_body, block?_withParam]
      cases g.block? c <;> rfl
  · rw [row_params, block?_withParam, hb]
    simp only [Option.map_some, Option.getD_some, Block.paramVars, if_true, hnew, List.map_append,
      List.map_cons]
    rfl

theorem Coherent.erased (h : g.Coherent) {v : Variable} {b : BlockId} {i : Nat}
    (hv : g.site? v = some (.statement b i)) : (g.erased b i v).Coherent := by
  obtain ⟨block, s, hb, hentry⟩ := h.statement_of_site hv
  obtain ⟨front, back, hbody, rfl⟩ := exists_append_cons_of_getElem? hentry
  have hnew : block.body.eraseIdx front.length = front ++ back := by
    rw [hbody, eraseIdx_append]
  -- what stands behind the variable moves back by one, and the variable is deleted at the end
  have hsites : (g.erased b front.length v).sites
      = (number (.statement b) (front.map Prod.fst).length (back.map Prod.fst)
          g.sites).setIfInBounds v.index .deleted := by
    simp [Graph.erased, hb, hnew]
  unfold Coherent
  rw [hsites]
  refine Agrees.erase h (.body b) _ _ _ ?_ _ ?_ ?_
  · rw [row_body_of_block? hb, Block.bodyVars, hbody, List.map_append, List.map_cons]
  · intro r hr
    cases r with
    | params c =>
      rw [row_params, row_params, block?_erased]
      split
      · cases g.block? c <;> rfl
      · rfl
    | body c =>
      have hbc : b ≠ c := fun hbc => hr (congrArg Row.body hbc.symm)
      rw [row_body, row_body, block?_erased, if_neg hbc]
  · rw [row_body, block?_erased, if_pos rfl, hb]
    simp [Block.bodyVars, hnew]

/-- A variable that was handed out and deleted at once leaves the table in agreement with the
blocks. -/
theorem Coherent.pushDeleted (h : g.Coherent) :
    ({ g with sites := g.sites.push .deleted } : Graph).Coherent := by
  show Agrees _ g.row
  refine Agrees.of_sites (fun r i w hi => ?_) fun w r i hsite => ?_
  · have hlt := Agrees.lt_size h (List.mem_iff_getElem?.2 ⟨i, hi⟩)
    rw [Array.getElem?_push_lt hlt, ← Array.getElem?_eq_getElem hlt]
    exact (h w r i).2 hi
  · rw [Array.getElem?_push] at hsite
    split at hsite
    · exact absurd (Option.some.inj hsite).symm (Row.site_ne_deleted r i)
    · exact ⟨r, List.mem_iff_getElem?.2 ⟨i, (h w r i).1 hsite⟩⟩

/-- Two statements of a coherent graph that bind one variable are one. -/
theorem Coherent.place_unique (h : g.Coherent) {b c : BlockId} {block other : Block} {i j : Nat}
    {v : Variable} {s t : Statement} (hb : g.block? b = some block)
    (hi : block.body[i]? = some (v, s)) (hc : g.block? c = some other)
    (hj : other.body[j]? = some (v, t)) : b = c ∧ i = j := by
  have hrow : ∀ {d : BlockId} {home : Block} {k : Nat} {u : Statement}, g.block? d = some home →
      home.body[k]? = some (v, u) → (g.row (.body d))[k]? = some v := by
    intro d home k u hd hk
    rw [row_body_of_block? hd, Block.bodyVars, List.getElem?_map, hk]
    rfl
  obtain ⟨heq, hij⟩ := Agrees.unique h (hrow hb hi) (hrow hc hj)
  exact ⟨Row.body.inj heq, hij⟩

/-! ## Edits of operands and branches -/

/-- A change of the blocks, one by one, that binds the same variables keeps coherence. -/
theorem Coherent.of_blocks (h : g.Coherent) (hsites : g'.sites = g.sites)
    (hparams : g'.blocks.toList.map Block.paramVars = g.blocks.toList.map Block.paramVars)
    (hbody : g'.blocks.toList.map Block.bodyVars = g.blocks.toList.map Block.bodyVars) :
    g'.Coherent := by
  refine h.of_vars hsites (fun b => ?_) fun b => ?_
  · have hb := congrArg (fun l : List (List Variable) => l[b.index]?) hparams
    simpa [block?] using hb
  · have hb := congrArg (fun l : List (List Variable) => l[b.index]?) hbody
    simpa [block?] using hb

/-- Another statement in the place of one binds the same variable. -/
theorem Coherent.withStatement (h : g.Coherent) (b : BlockId) (i : Nat) (s : Statement) :
    (g.modifyBlock b fun block => { block with
      body := block.body.modify i fun e => (e.1, s) }).Coherent := by
  refine h.modifyBlock b (fun _ => rfl) fun block => ?_
  refine List.ext_getElem? fun j => ?_
  simp only [Block.bodyVars, List.getElem?_map, List.getElem?_modify]
  split <;> cases block.body[j]? <;> rfl

theorem Coherent.set (h : g.Coherent) {v : Variable} {s old : Statement}
    (hset : g.set v s = .ok (g', old)) : g'.Coherent := by
  obtain ⟨b, i, -, -, rfl, -⟩ := set_eq_ok.1 hset
  exact h.withStatement b i s

theorem Coherent.delete (h : g.Coherent) {v : Variable} {old : Statement}
    (hdelete : g.delete v = .ok (g', old)) : g'.Coherent := by
  obtain ⟨b, i, hv, -, rfl, -⟩ := delete_eq_ok.1 hdelete
  exact h.erased hv

theorem Coherent.addBranch (h : g.Coherent) {b : BlockId} {br : Branch}
    (hbranch : g.addBranch b br = .ok g') : g'.Coherent := by
  obtain ⟨block, -, -, -, -, rfl⟩ := addBranch_eq_ok.1 hbranch
  exact h.modifyBlock b (fun _ => rfl) fun _ => rfl

theorem Coherent.routeCalls (h : g.Coherent) (via : Operand) : (g.routeCalls via).1.Coherent := by
  refine h.of_blocks rfl ?_ ?_
  · simp only [Graph.routeCalls, Array.toList_map, List.map_map]
    rfl
  · simp only [Graph.routeCalls, Array.toList_map, List.map_map]
    refine List.map_congr_left fun block _ => ?_
    simp only [Function.comp_apply, Block.bodyVars, List.map_map]
    rfl

/-- A stateful step answers with something that `P` holds of, whatever the states. -/
def Answers {ρ τ α : Type} (x : StateT ρ (StateM τ) α) (P : α → Prop) : Prop :=
  ∀ r t, P ((x.run r).run t).1.1

section Answers

variable {ρ τ α β γ : Type}

theorem Answers.pure {a : α} {P : α → Prop} (h : P a) :
    Answers (Pure.pure a : StateT ρ (StateM τ) α) P := fun _ _ => h

theorem Answers.bind {x : StateT ρ (StateM τ) α} {f : α → StateT ρ (StateM τ) β} {P : α → Prop}
    {Q : β → Prop} (hx : Answers x P) (hf : ∀ a, P a → Answers (f a) Q) : Answers (x >>= f) Q :=
  fun r t => hf _ (hx r t) _ _

theorem Answers.anything (x : StateT ρ (StateM τ) α) : Answers x fun _ => True := fun _ _ => trivial

/-- If every answer keeps a part of the element, the list of answers keeps the list of parts. -/
theorem Answers.mapM {f : α → StateT ρ (StateM τ) β} {p : α → γ} {q : β → γ}
    (h : ∀ a, Answers (f a) fun b => q b = p a) (l : List α) :
    Answers (l.mapM f) fun l' => l'.map q = l.map p := by
  induction l with
  | nil => exact .pure rfl
  | cons a l ih =>
    rw [List.mapM_cons]
    refine .bind (h a) fun b hb => .bind ih fun l' hl' => .pure ?_
    rw [List.map_cons, List.map_cons, hb, hl']

end Answers

/-- Going through the operands of a block leaves the variables that it binds. -/
theorem answers_mapOperandsM {ρ τ : Type} (f : Operand → StateT ρ (StateM τ) Operand) (b : Block) :
    Answers (b.mapOperandsM f) fun b' => b'.params = b.params ∧ b'.bodyVars = b.bodyVars := by
  have hstatement : ∀ e : Variable × Statement,
      Answers (do return (e.1, { e.2 with operation := ← e.2.operation.mapM f }))
        fun e' : Variable × Statement => e'.1 = e.1 :=
    fun e => .bind (.anything _) fun _ _ => .pure rfl
  unfold Block.mapOperandsM
  refine .bind (.mapM (p := Prod.fst) (q := Prod.fst) hstatement b.body) fun body hbody => ?_
  exact .bind (.anything _) fun branches _ => .pure ⟨rfl, hbody⟩

/-- A replacement of operands leaves the table and the variables of every block. -/
theorem replaceOperandsM_vars {τ : Type} {f : Operand → StateM τ (Option Operand)}
    {t t' : τ} {n : Nat} (h : (g.replaceOperandsM f).run t = (.ok (g', n), t')) :
    g'.sites = g.sites ∧ g'.blocks.toList.map (fun b => (b.params, b.bodyVars))
      = g.blocks.toList.map fun b => (b.params, b.bodyVars) := by
  have hvars : Answers (g.blocks.toList.mapM (Block.mapOperandsM (replaceOperand f))) fun l =>
      l.map (fun b => (b.params, b.bodyVars))
        = g.blocks.toList.map fun b => (b.params, b.bodyVars) :=
    .mapM (fun b r t => Prod.ext_iff.2 (answers_mapOperandsM (replaceOperand f) b r t)) _
  rcases hrun : ((g.blocks.toList.mapM (Block.mapOperandsM (replaceOperand f))).run []).run t with
    ⟨⟨blocks, made⟩, t₁⟩
  have hmap := hvars [] t
  rw [hrun] at hmap
  -- as a result of a run the pair is what the rest of the step is bound to
  replace hrun := hrun.trans (rfl : _ = (Pure.pure ((blocks, made), t₁) : Id _))
  rw [Graph.replaceOperandsM, StateT.run_bind, hrun, pure_bind] at h
  dsimp only at h
  by_cases hvar : made.any Operand.isVar = true
  · rw [if_pos hvar] at h
    cases h
  · rw [if_neg hvar] at h
    cases h
    exact ⟨rfl, hmap⟩

theorem Coherent.replaceOperandsM (h : g.Coherent) {τ : Type}
    {f : Operand → StateM τ (Option Operand)} {t t' : τ} {n : Nat}
    (hreplace : (g.replaceOperandsM f).run t = (.ok (g', n), t')) : g'.Coherent := by
  obtain ⟨hsites, hmap⟩ := replaceOperandsM_vars hreplace
  refine h.of_blocks hsites ?_ ?_
  · have hparams := congrArg (List.map fun e => e.1.map Prod.fst) hmap
    rwa [List.map_map, List.map_map] at hparams
  · have hbody := congrArg (List.map Prod.snd) hmap
    rwa [List.map_map, List.map_map] at hbody

/-! ## Tables that are read off the blocks -/

/-- The blocks found at all positions are the blocks. -/
theorem filterMap_blockIds (g : Graph) : g.blockIds.filterMap g.block? = g.blocks.toList := by
  have hlist : ∀ l : List Block, (List.range l.length).filterMap (fun i => l[i]?) = l := by
    intro l
    induction l with
    | nil => rfl
    | cons b l ih =>
      rw [List.length_cons, List.range_succ_eq_map, List.filterMap_cons_some (by rfl),
        List.filterMap_map]
      exact congrArg (b :: ·) ih
  rw [blockIds, List.filterMap_map]
  simpa [Function.comp_def, block?] using hlist g.blocks.toList

theorem Coherent.prune (h : g.Coherent) : g.prune.1.Coherent := by
  unfold Graph.prune
  dsimp only
  split
  · exact h
  · have hsub : (((g.reachable.filterMap g.block?).map fun b =>
          { b with branches := b.branches.map (retarget g.reachable) }).flatMap
        Block.boundVars).Sublist g.boundVars := by
      -- the branches are all that is changed in a block, and they bind nothing
      rw [List.flatMap_map, boundVars, ← filterMap_blockIds]
      exact (List.filter_sublist.filterMap g.block?).flatMap Block.boundVars
    refine coherent_of_sitesOf (rfl : _ = sitesOf g.varCount _) ?_ ?_
    · exact List.Nodup.sublist hsub h.nodup_boundVars
    · exact fun v hv => h.lt_varCount (hsub.subset hv)

/-- Pruning keeps the entry, which is reached. -/
theorem size_prune_pos (h : 0 < g.blocks.size) : 0 < g.prune.1.blocks.size := by
  unfold Graph.prune
  dsimp only
  split
  · exact h
  · have hentry : BlockId.entry ∈ g.reachable := (mem_reachable g _).2 ⟨h, reached_entry⟩
    have hblock : g.block? .entry = some g.blocks[0] := Array.getElem?_eq_getElem h
    have hmem := List.mem_filterMap.2 ⟨_, hentry, hblock⟩
    simpa [renumbered] using List.length_pos_of_mem hmem

/-- The bound variables get the numbers from zero on, in order. -/
theorem map_rename_self {bound : List Variable} (hnd : bound.Nodup) :
    bound.map (rename bound) = (List.range bound.length).map .mk := by
  refine List.ext_getElem (by simp) fun i hi _ => ?_
  rw [List.length_map] at hi
  have hfind : bound.findIdx? (· == bound.get ⟨i, hi⟩) = some i := by
    refine List.findIdx?_eq_some_iff_getElem.2 ⟨hi, by simp, fun j hj => ?_⟩
    have hne := List.pairwise_iff_getElem.1 hnd j i (Nat.lt_trans hj hi) hi hj
    simpa using hne
  rw [List.get_eq_getElem] at hfind
  simp [rename, hfind]

theorem boundVars_renameBlock (f : Variable → Variable) (b : Block) :
    (renameBlock f b).boundVars = b.boundVars.map f := by
  simp [renameBlock, Block.boundVars, Block.paramVars, Block.bodyVars, Function.comp_def]

theorem boundVars_canonical (hnd : g.boundVars.Nodup) :
    g.canonical.boundVars = (List.range g.boundVars.length).map .mk := by
  rw [← map_rename_self hnd]
  simp only [boundVars, Graph.canonical, Array.toList_map, List.flatMap_map, List.map_flatMap,
    boundVars_renameBlock]

theorem Coherent.canonical (h : g.Coherent) : g.canonical.Coherent := by
  have hbound := boundVars_canonical h.nodup_boundVars
  refine coherent_of_sitesOf (rfl : _ = sitesOf g.boundVars.length _) ?_ ?_
  · rw [hbound]
    refine List.Pairwise.map _ ?_ List.nodup_range
    intro i j hij heq
    exact hij (congrArg Variable.index heq)
  · intro v hv
    rw [hbound] at hv
    obtain ⟨i, hi, rfl⟩ := List.mem_map.1 hv
    exact List.mem_range.1 hi

end Graph

end Interpose
