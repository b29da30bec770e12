import Mathlib.Data.List.Basic
import Interpose.Graph.InPlace

/-!
# Replacing in two passes

Operands are replaced in place in two passes, the first of which only asks, and in
`Graph.replaceOperandsM` in one that replaces as it asks. Both ask the same questions in the same
order, and so get the same answers. That the second pass then makes the same of the blocks is the
matter of this module. It is said level by level, for the operands of a list, an operation, the
statements or branches of a block, and the blocks: the replacements that are found for a part of the
whole write down what the one pass has made of it, whatever stands before it.
-/

set_option autoImplicit false

namespace Interpose

variable {τ γ γ' γ'' β β' : Type}

/-! ## Asking first -/

/-- The one computation asks what the other asks while it replaces. They leave the same knowledge,
and what they find, which replacements are made and what becomes of the part are related. -/
def Follows (find : StateM τ γ) (replace : StateT (List Operand) (StateM τ) β)
    (R : γ → List Operand → β → Prop) : Prop :=
  ∀ t made, ∃ x more, (replace.run made).run t = ((x, made ++ more), (find.run t).2)
    ∧ R (find.run t).1 more x

namespace Follows

variable {find : StateM τ γ} {replace : StateT (List Operand) (StateM τ) β}
  {R : γ → List Operand → β → Prop}

protected theorem pure {c : γ} {x : β} (h : R c [] x) :
    Follows (pure c : StateM τ γ) (pure x) R :=
  fun t made => ⟨x, [], by rw [List.append_nil]; rfl, h⟩

protected theorem mono {R' : γ → List Operand → β → Prop} (h : Follows find replace R)
    (hmono : ∀ c more x, R c more x → R' c more x) : Follows find replace R' := by
  intro t made
  obtain ⟨x, more, hrun, hR⟩ := h t made
  exact ⟨x, more, hrun, hmono _ _ _ hR⟩

/-- One part after another. -/
protected theorem bind {find' : StateM τ γ'} {replace' : β → StateT (List Operand) (StateM τ) β'}
    {R' : β → γ' → List Operand → β' → Prop} (both : γ → γ' → γ'')
    {R'' : γ'' → List Operand → β' → Prop} (h : Follows find replace R)
    (h' : ∀ x, Follows find' (replace' x) (R' x))
    (hboth : ∀ c c' more more' x x', R c more x → R' x c' more' x' →
      R'' (both c c') (more ++ more') x') :
    Follows (do let c ← find; let c' ← find'; return both c c') (replace >>= replace') R'' := by
  intro t made
  obtain ⟨x, more, hrun, hR⟩ := h t made
  obtain ⟨x', more', hrun', hR'⟩ := h' x (find.run t).2 (made ++ more)
  refine ⟨x', more ++ more', ?_, hboth _ _ _ _ _ _ hR hR'⟩
  rw [StateT.run_bind, StateT.run_bind, hrun, ← List.append_assoc]
  exact hrun'

/-- The part is put together differently. -/
protected theorem map (F : β → β') {R' : γ → List Operand → β' → Prop} (h : Follows find replace R)
    (hmap : ∀ c more x, R c more x → R' c more (F x)) :
    Follows find (replace >>= fun x => pure (F x)) R' := by
  intro t made
  obtain ⟨x, more, hrun, hR⟩ := h t made
  refine ⟨F x, more, ?_, hmap _ _ _ hR⟩
  rw [StateT.run_bind, StateT.run_bind, hrun]
  rfl

end Follows

/-! ## Writing at one place -/

/-- What is written at the place behind a list changes what stands there. -/
theorem foldl_modify_append {α : Type} (write : α → β → β) (place : α → Nat) (found : List α)
    (pre : List β) (x : β) (xs : List β) (h : ∀ r ∈ found, place r = pre.length) :
    found.foldl (fun l r => l.modify (place r) (write r)) (pre ++ x :: xs)
      = pre ++ found.foldl (fun x r => write r x) x :: xs := by
  induction found generalizing x with
  | nil => rfl
  | cons r found ih =>
    have hmodify : (pre ++ x :: xs).modify (place r) (write r) = pre ++ write r x :: xs := by
      rw [h r List.mem_cons_self]
      clear ih h
      induction pre <;> simp_all
    rw [List.foldl_cons, hmodify]
    exact ih _ fun r' hr' => h r' (List.mem_cons_of_mem r hr')

open Interpose.Graph

namespace Replacement

variable (f : Operand → StateM τ (Option Operand)) {b part slot : Nat}

/-! ## Operands -/

/-- What is not a variable is asked about once, and the answer is put down if there is one. -/
theorem run_replaceOperand {op : Operand} (hop : op.isVar = false) (made : List Operand) (t : τ) :
    ((replaceOperand f op).run made).run t
      = ((((f op).run t).1.getD op, made ++ ((f op).run t).1.toList), ((f op).run t).2) := by
  cases op with
  | var v => cases hop
  | const c =>
    rcases hrun : (f (.const c)).run t with ⟨_ | new, t'⟩
    all_goals
      simp [replaceOperand, StateT.run_bind, hrun]
      rfl
  | global name =>
    rcases hrun : (f (.global name)).run t with ⟨_ | new, t'⟩
    all_goals
      simp [replaceOperand, StateT.run_bind, hrun]
      rfl

theorem follows_operand (op : Operand) : Follows (answer f op) (replaceOperand f op)
    fun new more op' => more = new.toList ∧ op' = new.getD op := by
  cases op with
  | var v => exact .pure ⟨rfl, rfl⟩
  | const _ | global _ => exact fun t made => ⟨_, _, run_replaceOperand f rfl made t, rfl, rfl⟩

/-- The replacements are the ones that are made in the one pass, and they are for one statement or
branch. -/
def ForPart (b part : Nat) (found : List Replacement) (more : List Operand) : Prop :=
  more = found.map Replacement.new ∧ ∀ r ∈ found, r.block = b ∧ r.part = part

/-- The replacements lead from the operands that stand from a place on to the new ones. -/
def WritesOperands (slot : Nat) (ops ops' : List Operand) (found : List Replacement) : Prop :=
  ∀ pre : List Operand, pre.length = slot →
    found.foldl (fun ops r => ops.set r.slot r.new) (pre ++ ops) = pre ++ ops'

theorem follows_operands (ops : List Operand) (slot : Nat) :
    Follows (find f b part slot ops) (ops.mapM (replaceOperand f)) fun found more ops' =>
      ForPart b part found more ∧ WritesOperands slot ops ops' found := by
  induction ops generalizing slot with
  | nil => exact .pure ⟨⟨rfl, nofun⟩, fun _ _ => rfl⟩
  | cons op ops ih =>
    have hrest : ∀ op', Follows (find f b part (slot + 1) ops)
        (ops.mapM (replaceOperand f) >>= fun ops' => pure (op' :: ops')) fun found more l =>
          ∃ ops', l = op' :: ops' ∧ ForPart b part found more
            ∧ WritesOperands (slot + 1) ops ops' found :=
      fun op' => (ih (slot + 1)).map _ fun _ _ ops' h => ⟨ops', rfl, h⟩
    rw [List.mapM_cons]
    -- the first operand is asked for first, and what is found later is written behind it
    refine Follows.bind _ (follows_operand f op) hrest ?_
    rintro new rest _ more' _ _ ⟨rfl, rfl⟩ ⟨ops', rfl, ⟨rfl, hpart⟩, hwrite⟩
    refine ⟨⟨by cases new <;> rfl, fun r hr => ?_⟩, fun pre hpre => ?_⟩
    · rcases List.mem_append.1 hr with hr | hr
      · cases new with
        | none => cases hr
        | some new => obtain rfl := List.mem_singleton.1 hr; exact ⟨rfl, rfl⟩
      · exact hpart r hr
    · have hhead : (new.map fun new => (⟨b, part, slot, new⟩ : Replacement)).toList.foldl
          (fun ops r => ops.set r.slot r.new) (pre ++ op :: ops) = pre ++ [new.getD op] ++ ops := by
        subst hpre
        cases new <;> simp
      rw [List.foldl_append, hhead, hwrite _ (by simp [hpre]), List.append_assoc]
      rfl

/-- An operation is its operands, and a replacement in it goes to one of them. -/
theorem foldl_replaceSlot (found : List Replacement) (callee : Operand) (args : List Operand) :
    ∃ callee' args', found.foldl (fun ops r => ops.set r.slot r.new) (callee :: args)
      = callee' :: args'
      ∧ found.foldl (fun e r => e.replaceSlot r.slot r.new) (Operation.call callee args)
        = .call callee' args' := by
  induction found generalizing callee args with
  | nil => exact ⟨callee, args, rfl, rfl⟩
  | cons r found ih =>
    rw [List.foldl_cons, List.foldl_cons]
    rcases hslot : r.slot with _ | k
    · exact ih r.new args
    · exact ih callee (args.set k r.new)

theorem foldl_replaceSlot_operand (found : List Replacement) (op : Operand) :
    ∃ op', found.foldl (fun ops r => ops.set r.slot r.new) [op] = [op']
      ∧ found.foldl (fun e r => e.replaceSlot r.slot r.new) (Operation.operand op)
        = .operand op' := by
  induction found generalizing op with
  | nil => exact ⟨op, rfl, rfl⟩
  | cons r found ih =>
    rw [List.foldl_cons, List.foldl_cons]
    rcases hslot : r.slot with _ | k
    · exact ih r.new
    · exact ih op

theorem follows_operation (e : Operation) :
    Follows (find f b part 0 e.operands) (e.mapM (replaceOperand f)) fun found more e' =>
      ForPart b part found more ∧ found.foldl (fun e r => e.replaceSlot r.slot r.new) e = e' := by
  cases e with
  | call callee args =>
    have hmapM : (Operation.call callee args).mapM (replaceOperand f)
        = (callee :: args).mapM (replaceOperand f)
          >>= fun ops => pure (.call (ops.headD callee) ops.tail) := by
      rw [List.mapM_cons]
      simp [Operation.mapM]
    rw [hmapM]
    refine (follows_operands f (callee :: args) 0).map _ fun found more ops' ⟨hpart, hwrite⟩ =>
      ⟨hpart, ?_⟩
    obtain ⟨callee', args', hops, hcall⟩ := foldl_replaceSlot found callee args
    obtain rfl : ops' = callee' :: args' := (hwrite [] rfl).symm.trans hops
    exact hcall
  | operand op =>
    have hmapM : (Operation.operand op).mapM (replaceOperand f)
        = [op].mapM (replaceOperand f) >>= fun ops => pure (.operand (ops.headD op)) := by
      simp [Operation.mapM]
    rw [hmapM]
    refine (follows_operands f [op] 0).map _ fun found more ops' ⟨hpart, hwrite⟩ => ⟨hpart, ?_⟩
    obtain ⟨op', hops, hoperand⟩ := foldl_replaceSlot_operand found op
    obtain rfl : ops' = [op'] := (hwrite [] rfl).symm.trans hops
    exact hoperand

/-! ## Statements and branches -/

/-- The replacements are the ones made in the one pass, and they are for one block. -/
def ForBlock (b : Nat) (found : List Replacement) (more : List Operand) : Prop :=
  more = found.map Replacement.new ∧ ∀ r ∈ found, r.block = b

section Parts

variable {α : Type} (operands : α → List Operand) (replace : α → StateT (List Operand) (StateM τ) α)
  (write : Replacement → α → α)

/-- What holds of one statement or branch holds of a list of them. -/
theorem follows_parts
    (h : ∀ x part, Follows (find f b part 0 (operands x)) (replace x) fun found more x' =>
      ForPart b part found more ∧ found.foldl (fun x r => write r x) x = x') (xs : List α)
        (part : Nat) :
    Follows (findInParts f b part (xs.map operands)) (xs.mapM replace) fun found more xs' =>
      ForBlock b found more ∧ ∀ pre : List α, pre.length = part →
        found.foldl (fun xs r => xs.modify r.part (write r)) (pre ++ xs) = pre ++ xs' := by
  induction xs generalizing part with
  | nil => exact .pure ⟨⟨rfl, nofun⟩, fun _ _ => rfl⟩
  | cons x xs ih =>
    have hrest : ∀ x', Follows (findInParts f b (part + 1) (xs.map operands))
        (xs.mapM replace >>= fun xs' => pure (x' :: xs')) fun found more l => ∃ xs', l = x' :: xs' ∧
          ForBlock b found more ∧ ∀ pre : List α, pre.length = part + 1 →
            found.foldl (fun xs r => xs.modify r.part (write r)) (pre ++ xs) = pre ++ xs' :=
      fun x' => (ih (part + 1)).map _ fun _ _ xs' h => ⟨xs', rfl, h⟩
    rw [List.mapM_cons]
    refine Follows.bind _ (h x part) hrest ?_
    rintro found rest _ _ _ _ ⟨⟨rfl, hpart⟩, rfl⟩ ⟨xs', rfl, ⟨rfl, hblock⟩, hwrite⟩
    refine ⟨⟨(List.map_append ..).symm, fun r hr => ?_⟩, fun pre hpre => ?_⟩
    · rcases List.mem_append.1 hr with hr | hr
      · exact (hpart r hr).1
      · exact hblock r hr
    · rw [List.foldl_append, foldl_modify_append write Replacement.part found pre x xs
        fun r hr => (hpart r hr).2.trans hpre.symm, List.append_cons, hwrite _ (by simp [hpre]),
        List.append_assoc]
      rfl

end Parts

theorem foldl_onStatement (found : List Replacement) (v : Variable) (s : Statement) :
    found.foldl (fun e r => r.onStatement e) (v, s)
      = (v, { s with
        operation := found.foldl (fun e r => e.replaceSlot r.slot r.new) s.operation }) := by
  induction found generalizing s with
  | nil => rfl
  | cons r found ih => exact ih { s with operation := s.operation.replaceSlot r.slot r.new }

theorem foldl_onBranch (found : List Replacement) (br : Branch) :
    found.foldl (fun br r => r.onBranch br) br
      = { br with args := found.foldl (fun args r => args.set r.slot r.new) br.args } := by
  induction found generalizing br with
  | nil => rfl
  | cons r found ih => exact ih (r.onBranch br)

theorem follows_body (body : List (Variable × Statement)) :
    Follows (findInParts f b 0 (body.map (·.2.operation.operands)))
      (body.mapM fun (v, s) => do return (v,
        { s with operation := ← s.operation.mapM (replaceOperand f) }))
      fun found more body' => ForBlock b found more ∧
        found.foldl (fun body r => body.modify r.part r.onStatement) body = body' := by
  refine (follows_parts f (fun e : Variable × Statement => e.2.operation.operands) _ onStatement ?_
      body 0).mono fun _ _ _ ⟨hblock, hwrite⟩ => ⟨hblock, hwrite [] rfl⟩
  rintro ⟨v, s⟩ part
  refine (follows_operation f s.operation).map _ fun found _ _ ⟨hpart, hwrite⟩ => ⟨hpart, ?_⟩
  rw [← hwrite, foldl_onStatement]

theorem follows_branches (branches : List Branch) :
    Follows (findInParts f b 0 (branches.map Branch.args))
      (branches.mapM fun br => do return { br with args := ← br.args.mapM (replaceOperand f) })
      fun found more branches' => ForBlock b found more ∧
        found.foldl (fun branches r => branches.modify r.part r.onBranch) branches = branches' := by
  refine (follows_parts f Branch.args _ onBranch ?_ branches 0).mono
    fun _ _ _ ⟨hblock, hwrite⟩ => ⟨hblock, hwrite [] rfl⟩
  intro br part
  refine (follows_operands f br.args 0).map _ fun found _ args ⟨hpart, hwrite⟩ => ⟨hpart, ?_⟩
  have hargs : found.foldl (fun args r => args.set r.slot r.new) br.args = args := hwrite [] rfl
  rw [← hargs, foldl_onBranch]

/-! ## Blocks -/

/-- Writing in the body first, and then in the branches, leads from a block to the new one. -/
def WritesBlock (block block' : Block) (found : List Replacement × List Replacement) : Prop :=
  ∃ between, found.1.foldl (fun block r => r.inBody block) block = between
    ∧ found.2.foldl (fun block r => r.inBranches block) between = block'

theorem follows_block (block : Block) :
    Follows (findInBlock f b block) (block.mapOperandsM (replaceOperand f)) fun found more block' =>
      more = (found.1 ++ found.2).map Replacement.new ∧ (∀ r ∈ found.1 ++ found.2, r.block = b)
        ∧ WritesBlock block block' found := by
  have hbranches : ∀ body', Follows (findInParts f b 0 (block.branches.map Branch.args))
      ((block.branches.mapM fun br => do
          return { br with args := ← br.args.mapM (replaceOperand f) })
        >>= fun branches => pure { block with body := body', branches })
      fun found more block' => ∃ branches',
        block' = { block with body := body', branches := branches' } ∧ ForBlock b found more ∧
          found.foldl (fun branches r => branches.modify r.part r.onBranch) block.branches
            = branches' :=
    fun body' => (follows_branches f block.branches).map _ fun _ _ branches' h =>
      ⟨branches', rfl, h⟩
  refine Follows.bind _ (follows_body f block.body) hbranches ?_
  rintro inBody inBranches _ _ body' _ ⟨⟨rfl, hbody⟩, rfl⟩ ⟨branches', rfl, ⟨rfl, hbranches⟩, rfl⟩
  refine ⟨(List.map_append ..).symm, fun r hr => ?_, _, rfl, ?_⟩
  · exact (List.mem_append.1 hr).elim (hbody r) (hbranches r)
  · have hmiddle : inBody.foldl (fun block r => r.inBody block) block
        = { block with
          body := inBody.foldl (fun body r => body.modify r.part r.onStatement) block.body } :=
      List.foldl_hom (fun body => { block with body }) fun _ _ => rfl
    rw [hmiddle]
    exact List.foldl_hom (fun branches => ({ block with
      body := inBody.foldl (fun body r => body.modify r.part r.onStatement) block.body,
      branches } : Block)) fun _ _ => rfl

/-- Writing in all bodies first, and then in the branches, leads from the blocks that stand from a
position on to the new ones. -/
def WritesBlocks (b : Nat) (blocks blocks' : List Block)
    (found : List Replacement × List Replacement) : Prop :=
  ∃ between, ∀ pre : List Block, pre.length = b →
    found.1.foldl (fun blocks r => blocks.modify r.block r.inBody) (pre ++ blocks) = pre ++ between
    ∧ found.2.foldl (fun blocks r => blocks.modify r.block r.inBranches) (pre ++ between)
      = pre ++ blocks'

theorem follows_blocks (blocks : List Block) (b : Nat) :
    Follows (findInBlocks f b blocks) (blocks.mapM (Block.mapOperandsM (replaceOperand f)))
      fun found more blocks' =>
      more.Perm ((found.1 ++ found.2).map Replacement.new)
        ∧ WritesBlocks b blocks blocks' found := by
  induction blocks generalizing b with
  | nil => exact .pure ⟨.refl _, [], fun pre _ => ⟨rfl, rfl⟩⟩
  | cons block blocks ih =>
    have hrest : ∀ block', Follows (findInBlocks f (b + 1) blocks)
        (blocks.mapM (Block.mapOperandsM (replaceOperand f))
          >>= fun blocks' => pure (block' :: blocks'))
        fun found more l => ∃ blocks', l = block' :: blocks'
          ∧ more.Perm ((found.1 ++ found.2).map Replacement.new)
          ∧ WritesBlocks (b + 1) blocks blocks' found :=
      fun block' => (ih (b + 1)).map _ fun _ _ blocks' h => ⟨blocks', rfl, h⟩
    rw [List.mapM_cons]
    refine Follows.bind _ (follows_block f block) hrest ?_
    rintro ⟨inBody, inBranches⟩ ⟨inBodies, inOthers⟩ _ more block' _
      ⟨rfl, hblock, between, rfl, rfl⟩
      ⟨blocks', rfl, hperm, betweens, hwrite⟩
    refine ⟨?_, inBody.foldl (fun block r => r.inBody block) block :: betweens,
      fun pre hpre => ⟨?_, ?_⟩⟩
    -- what the first pass keeps apart the one pass has mixed
    · simp only [List.map_append] at hperm ⊢
      refine (hperm.append_left _).trans ?_
      rw [List.append_assoc, List.append_assoc]
      exact (List.perm_append_comm_assoc ..).append_left _
    · rw [List.foldl_append,
        foldl_modify_append Replacement.inBody Replacement.block inBody pre block blocks
          fun r hr => (hblock r (List.mem_append_left _ hr)).trans hpre.symm, List.append_cons,
        (hwrite _ (by simp [hpre])).1, List.append_assoc]
      rfl
    · rw [List.foldl_append,
        foldl_modify_append Replacement.inBranches Replacement.block inBranches pre _ betweens
          fun r hr => (hblock r (List.mem_append_right _ hr)).trans hpre.symm, List.append_cons,
        (hwrite _ (by simp [hpre])).2, List.append_assoc]
      rfl

end Replacement

/-- What the one pass comes to: all replacements are made, or none if one of them is a variable. -/
theorem Graph.run_replaceOperandsM {g : Graph} {f : Operand → StateM τ (Option Operand)} {t t' : τ}
    {blocks : List Block} {more : List Operand}
    (hrun : ((g.blocks.toList.mapM (Block.mapOperandsM (replaceOperand f))).run []).run t
      = ((blocks, more), t')) :
    (g.replaceOperandsM f).run t
      = (if more.any Operand.isVar then .error (.structural .variableReplacement)
        else .ok ({ g with blocks := blocks.toArray }, more.length), t') := by
  rw [replaceOperandsM, StateT.run_bind, hrun]
  show (ite (more.any Operand.isVar = true) _ _ : StateM τ _).run _ = _
  split <;> rfl

end Interpose
