import Mathlib.Order.Nat
import Interpose.Proofs.Graph.Uncopied
import Interpose.Proofs.Run.Renamed

/-!
# A graph without copies runs alike

Beside the run of a graph there is the run without its copies. Wherever a variable is available, the
first frame holds in it what the second one shows at the end of its chain. An assignment could only
spoil this by binding the end of a chain anew while its beginning is available, and a graph in order
does not do that. What is read is available, so both runs read the same values, make the same calls
and take the same branches.
-/

set_option autoImplicit false

namespace Interpose

open EditPass (EndsAt EditedBranch)

variable {next : Variable → Option Operand} {resolve : Operand → Operand} {frame frame' : Frame}
  {known known' : Variable → Prop} {v w : Variable} {x : Value}

/-! ## Frames -/

/-- The frame shows the value at an operand that is no global. -/
def Operand.Shows (frame : Frame) (x : Value) : Operand → Prop
  | .var v => frame[v.index]? = some x
  | .const c => c = x
  | .global _ => False

/-- What the first frame holds in a variable that is known, the second one shows at the end of its
chain. -/
structure Frame.Resolves (resolve : Operand → Operand) (known : Variable → Prop)
    (frame frame' : Frame) : Prop where
  size : frame'.size = frame.size
  value : ∀ v, known v → ∃ x, frame[v.index]? = some x ∧ (resolve (.var v)).Shows frame' x

namespace Frame

theorem getElem?_bind_of_notMem {vs : List Variable} (hv : v ∉ vs) (xs : List Value) :
    (frame.bind vs xs)[v.index]? = frame[v.index]? := by
  induction vs generalizing frame xs with
  | nil => rfl
  | cons w vs ih =>
    cases xs with
    | nil => rfl
    | cons x xs =>
      have hne : w.index ≠ v.index := fun heq => hv (Variable.index_inj.1 heq ▸ List.mem_cons_self)
      rw [Frame.bind, ih (fun hmem => hv (List.mem_cons_of_mem w hmem)),
        Array.getElem?_setIfInBounds_ne hne]

/-- Frames in which the same is bound hold the same there. -/
theorem exists_bind {vs : List Variable} {xs : List Value} (hlen : vs.length ≤ xs.length)
    (hslots : ∀ v ∈ vs, v.index < frame.size) (hsize : frame'.size = frame.size) (hv : v ∈ vs) :
    ∃ x, (frame.bind vs xs)[v.index]? = some x ∧ (frame'.bind vs xs)[v.index]? = some x := by
  induction vs generalizing frame frame' xs with
  | nil => exact absurd hv List.not_mem_nil
  | cons w vs ih =>
    cases xs with
    | nil => exact absurd hlen (Nat.not_succ_le_zero _)
    | cons x xs =>
      have hlt := hslots w List.mem_cons_self
      have hrest : ∀ v ∈ vs, v.index < (frame.setIfInBounds w.index x).size := fun v hv => by
        rw [Array.size_setIfInBounds]
        exact hslots v (List.mem_cons_of_mem w hv)
      have hsize' : (frame'.setIfInBounds w.index x).size
          = (frame.setIfInBounds w.index x).size := by
        rw [Array.size_setIfInBounds, Array.size_setIfInBounds, hsize]
      by_cases hmem : v ∈ vs
      · exact ih (Nat.le_of_succ_le_succ hlen) hrest hsize' hmem
      · obtain rfl := (List.mem_cons.1 hv).resolve_right hmem
        refine ⟨x, ?_, ?_⟩
        · rw [Frame.bind, getElem?_bind_of_notMem hmem, Array.getElem?_setIfInBounds_self_of_lt hlt]
        · rw [Frame.bind, getElem?_bind_of_notMem hmem,
            Array.getElem?_setIfInBounds_self_of_lt (hsize ▸ hlt)]

namespace Resolves

theorem mono (h : Resolves resolve known frame frame') (hknown : ∀ v, known' v → known v) :
    Resolves resolve known' frame frame' where
  size := h.size
  value v hv := h.value v (hknown v hv)

/-- **Binding in both frames** leaves the ends of chains alone if it binds none of them anew. -/
theorem bind (h : Resolves resolve known frame frame') {vs : List Variable} {xs : List Value}
    (hlen : vs.length ≤ xs.length) (hslots : ∀ v ∈ vs, v.index < frame.size)
    (hbound : ∀ v ∈ vs, resolve (.var v) = .var v)
    (hrest : ∀ v, known' v → v ∉ vs → known v ∧ ∀ w, resolve (.var v) = .var w → w ∉ vs) :
    Resolves resolve known' (frame.bind vs xs) (frame'.bind vs xs) where
  size := by rw [size_bind, size_bind, h.size]
  value v hv := by
    by_cases hmem : v ∈ vs
    · obtain ⟨x, hx, hx'⟩ := exists_bind hlen hslots h.size hmem
      exact ⟨x, hx, by rw [hbound v hmem]; exact hx'⟩
    · obtain ⟨hknown, hend⟩ := hrest v hv hmem
      obtain ⟨x, hx, hshows⟩ := h.value v hknown
      refine ⟨x, (getElem?_bind_of_notMem hmem xs).trans hx, ?_⟩
      rcases hresolve : resolve (.var v) with w | c | name
      all_goals rw [hresolve] at hshows
      · exact (getElem?_bind_of_notMem (hend w hresolve) xs).trans hshows
      · exact hshows
      · exact hshows

/-- **A copy** is assigned in the first frame only. -/
theorem copy (h : Resolves resolve known frame frame') (hslot : v.index < frame.size)
    (hx : (resolve (.var v)).Shows frame' x) (hrest : ∀ w, known' w → w ≠ v → known w) :
    Resolves resolve known' (frame.setIfInBounds v.index x) frame' where
  size := by rw [Array.size_setIfInBounds, h.size]
  value w hw := by
    by_cases hwv : w = v
    · subst hwv
      exact ⟨x, Array.getElem?_setIfInBounds_self_of_lt hslot, hx⟩
    · obtain ⟨y, hy, hshows⟩ := h.value w (hrest w hw hwv)
      have hne : v.index ≠ w.index := fun heq => hwv (Variable.index_inj.1 heq).symm
      exact ⟨y, (Array.getElem?_setIfInBounds_ne hne).trans hy, hshows⟩

/-- An operand that is known has the value that its chain shows. -/
theorem eval (h : Resolves resolve known frame frame') (hends : ∀ op, EndsAt next op (resolve op))
    {σ : Type} (env : Surroundings σ) {op : Operand} (hop : ∀ v, op.var? = some v → known v) :
    (resolve op).eval env frame' = op.eval env frame := by
  cases op with
  | var v =>
    obtain ⟨x, hx, hshows⟩ := h.value v (hop v rfl)
    have hread : frame.read v = .ok x := by rw [Frame.read, hx]
    show _ = Run.ofExcept (frame.read v)
    rw [hread]
    rcases hresolve : resolve (.var v) with w | c | name
    all_goals rw [hresolve] at hshows
    · have hread' : frame'.read w = .ok x := by
        rw [Frame.read, show frame'[w.index]? = some x from hshows]
      exact congrArg Run.ofExcept hread'
    · rw [show c = x from hshows]
      rfl
    · exact hshows.elim
  | const c => rw [(hends (.const c)).eq_of_var? rfl]; rfl
  | global name => rw [(hends (.global name)).eq_of_var? rfl]; rfl

end Resolves

end Frame

/-! ## Blocks -/

/-- What a copy passes on can be read, and its chain shows it. -/
theorem Frame.Resolves.exists_copied (h : Frame.Resolves resolve known frame frame')
    (hends : ∀ op, EndsAt next op (resolve op)) {σ : Type} (env : Surroundings σ) {op : Operand}
    (hop : ∀ v, op.var? = some v → known v) (hglobal : ∀ name, op ≠ .global name) :
    ∃ x, op.eval env frame = pure x ∧ (resolve op).Shows frame' x := by
  cases op with
  | var v =>
    obtain ⟨x, hx, hshows⟩ := h.value v (hop v rfl)
    refine ⟨x, ?_, hshows⟩
    rw [Operand.eval, Frame.read, hx]
    rfl
  | const c =>
    refine ⟨c, rfl, ?_⟩
    rw [(hends (.const c)).eq_of_var? rfl]
    rfl
  | global name => exact absurd rfl (hglobal name)

/-- The same branch is taken, with its operands at the ends of their chains. -/
theorem taken?_uncopied (h : Frame.Resolves resolve known frame frame')
    {branches branches' : List Branch}
    (hbranches : List.Forall₂ (EditedBranch resolve) branches branches')
    (hknown : ∀ br ∈ branches, ∀ c, br.condition = some c → known c) :
    Run.Fits (Option.Rel fun br br' => br ∈ branches ∧ EditedBranch resolve br br')
      (taken? frame branches)
      (taken? frame' branches') := by
  have hread : ∀ br br', br ∈ branches ∧ EditedBranch resolve br br' →
      Option.Rel (fun c c' => frame'.read c' = frame.read c) br.condition br'.condition := by
    rintro br br' ⟨hmem, hbr⟩
    have hcondition := hbr.condition
    rcases hc : br.condition with _ | c
    · rw [hc, Option.map_none, Option.map_eq_none_iff] at hcondition
      rw [hcondition]
      exact .none
    · rw [hc, Option.map_some, Option.map_eq_some_iff] at hcondition
      obtain ⟨c', hc', hend⟩ := hcondition
      obtain ⟨x, hx, hshows⟩ := h.value c (hknown br hmem c hc)
      rw [← hend] at hshows
      rw [hc']
      exact .some (by rw [Frame.read, Frame.read, hx, show frame'[c'.index]? = some x from hshows])
  have hpairs := (List.forall₂_and_left _ _).2 ⟨fun _ hmem => hmem, hbranches⟩
  exact (taken?_fits hpairs hread).mono fun _ _ htaken => htaken.1

namespace Graph

section Runs

variable {g g' : Graph} {σ : Type} {env : Surroundings σ} {b : BlockId} {block : Block}
  (hcoherent : g.Coherent) (hg : g.WellFormed) (hcopies : g.Copies next)
  (hreached : ∀ b block, g.block? b = some block → g.Reached b)
  (hends : ∀ op, EndsAt next op (resolve op))

include hcoherent hg hcopies hreached hends

/-- A statement that both runs do binds its variable in both frames. -/
theorem assign_uncopied (hb : g.block? b = some block) {i : Nat} {w : Variable} {s : Statement}
    (hi : block.body[i]? = some (w, s)) (hnext : next w = none) {frame frame' : Frame}
    (hslot : w.index < frame.size)
    (h : Frame.Resolves resolve (g.Available b block (some i)) frame frame') (x : Value) :
    Frame.Resolves resolve (g.Available b block (some (i + 1))) (frame.setIfInBounds w.index x)
      (frame'.setIfInBounds w.index x) := by
  have hlen : [w].length ≤ [x].length := Nat.le_refl 1
  refine h.bind hlen (fun v hv => ?_) (fun v hv => ?_) fun v hv hne => ?_
  · rw [List.mem_singleton.1 hv]
    exact hslot
  · rw [List.mem_singleton.1 hv]
    exact (hends (.var w)).eq_of_next hnext
  · -- what was available before the statement has the end of its chain available before it too
    have hbefore : g.Available b block (some i) v :=
      hv.before_statement hi fun heq => hne (List.mem_singleton.2 heq)
    refine ⟨hbefore, fun u hu hmem => ?_⟩
    have hend : g.Available b block (some i) u :=
      hcopies.available hcoherent hg.toWellUsed hb (hu ▸ hends (.var v)) hbefore
    exact hend.ne_statement hcoherent hb (hreached b block hb) hi (List.mem_singleton.1 hmem)

omit hreached in
/-- A copy that only the first run does binds in its frame what the second one shows already. -/
theorem copy_uncopied (hb : g.block? b = some block) {i : Nat} {w : Variable} {s : Statement}
    (hi : block.body[i]? = some (w, s)) {op : Operand} (hnext : next w = some op)
    {frame frame' : Frame} (hslot : w.index < frame.size)
    (h : Frame.Resolves resolve (g.Available b block (some i)) frame frame') :
    ∃ x, s.operation.eval env frame = pure x
      ∧ Frame.Resolves resolve (g.Available b block (some (i + 1)))
      (frame.setIfInBounds w.index x) frame' := by
  have hs := hcopies.statement hcoherent hb hi hnext
  obtain ⟨hoperation, hglobal⟩ := Statement.copied?_eq_some.1 hs
  have hop : ∀ u, op.var? = some u → g.Available b block (some i) u := fun u hu before hw =>
    hg.statement b block before hb hw i w s hi u (mem_uses_of_copied? hs hu)
  obtain ⟨x, hx, hshows⟩ := h.exists_copied hends env hop hglobal
  have hend : resolve (.var w) = resolve op := (hends (.var w)).unique (.hop hnext (hends op))
  refine ⟨x, by rw [hoperation, Operation.eval, hx], ?_⟩
  exact h.copy hslot (hend ▸ hshows) fun v hv hne => hv.before_statement hi hne

/-- **The statements from a place on** leave frames that agree on what is available at the end of
the block. -/
theorem runStatements_uncopied (hb : g.block? b = some block) (i : Nat)
    (rest : List (Variable × Statement)) (hrest : block.body.drop i = rest) {frame frame' : Frame}
    (hsize : frame.size = g.varCount)
    (h : Frame.Resolves resolve (g.Available b block (some i)) frame frame') :
    Run.Agree (fun f f' => f.size = g.varCount
      ∧ Frame.Resolves resolve (g.Available b block none) f f')
      (fun _ _ => True) (runStatements env frame rest) (runStatements env frame'
        ((rest.filter fun e => (next e.1).isNone).map fun e => (e.1, e.2.map resolve))) := by
  induction rest generalizing i frame frame' with
  | nil =>
    refine .pure ⟨hsize, h.mono fun v hv before hw => ?_⟩
    have hall : block.boundAt (some i) = block.boundAt none := by
      have hlen : block.bodyVars.length ≤ i := by
        rw [Block.bodyVars, List.length_map]
        exact List.drop_eq_nil_iff.1 hrest
      show block.paramVars ++ block.bodyVars.take i = block.boundVars
      rw [List.take_of_length_le hlen]
      rfl
    rw [hall]
    exact hv before hw
  | cons e rest ih =>
    obtain ⟨w, s⟩ := e
    have hi : block.body[i]? = some (w, s) := by
      rw [← List.head?_drop, hrest]
      rfl
    have hrest' : block.body.drop (i + 1) = rest := by
      rw [← List.tail_drop, hrest]
      rfl
    have hslot : w.index < frame.size := by
      rw [hsize]
      refine hcoherent.lt_varCount (mem_boundVars_of_block? hb (List.mem_append_right _ ?_))
      exact List.mem_map_of_mem (List.mem_of_getElem? hi)
    have hsize' : ∀ x, (frame.setIfInBounds w.index x).size = g.varCount := fun x => by
      rw [Array.size_setIfInBounds, hsize]
    -- either both runs do the statement, or it is a copy and only the first one does
    rcases hnext : next w with _ | op
    · have hkept : List.filter (fun e => (next e.1).isNone) ((w, s) :: rest)
          = (w, s) :: rest.filter fun e => (next e.1).isNone :=
        List.filter_cons_of_pos (by rw [hnext]; rfl)
      have heval : (s.map resolve).operation.eval env frame' = s.operation.eval env frame :=
        eval_map_operation fun op hop => h.eval hends env fun u hu before hw =>
          hg.statement b block before hb hw i w s hi u (List.mem_filterMap.2 ⟨op, hop, hu⟩)
      rw [hkept, List.map_cons, runStatements, runStatements, heval]
      refine .bind (.refl _) fun x y hxy => ?_
      obtain rfl := hxy
      exact ih (i + 1) hrest' (hsize' x)
        (assign_uncopied hcoherent hg hcopies hreached hends hb hi hnext hslot h x)
    · have hskipped : List.filter (fun e => (next e.1).isNone) ((w, s) :: rest)
          = rest.filter fun e => (next e.1).isNone :=
        List.filter_cons_of_neg (by rw [hnext]; exact Bool.false_ne_true)
      obtain ⟨x, hx, hnew⟩ := copy_uncopied hcoherent hg hcopies hends hb hi hnext hslot h
      rw [hskipped, runStatements, hx, pure_bind]
      exact ih (i + 1) hrest' (hsize' x) hnew

/-- The values that a branch passes are bound to the parameters in both frames. -/
theorem bind_uncopied (hb : g.block? b = some block) {t : BlockId} {other : Block}
    (ht : g.block? t = some other) (hfollows : t ∈ block.targets) {frame frame' : Frame}
    (hsize : frame.size = g.varCount)
    (h : Frame.Resolves resolve (g.Available b block none) frame frame') {xs : List Value}
    (hlen : xs.length = other.params.length) :
    Frame.Resolves resolve (g.Available t other (some 0)) (frame.bind other.paramVars xs)
      (frame'.bind other.paramVars xs) := by
  refine h.bind ?_ (fun v hv => ?_) (fun v hv => ?_) fun v hv hparam => ?_
  · rw [Block.paramVars, List.length_map, hlen]
  · rw [hsize]
    exact hcoherent.lt_varCount (mem_boundVars_of_block? ht (List.mem_append_left _ hv))
  · exact (hends (.var v)).eq_of_next (hcopies.next_param hcoherent ht hv)
  · refine ⟨hv.before_branch hb hfollows hparam, fun w hw => ?_⟩
    exact hcopies.ne_param hcoherent hg.toWellUsed ht (hreached t other ht) hv hparam
      (hw ▸ hends (.var v))

/-- **The graph without its copies runs alike** from every block. The induction is on the fuel.
Whenever a block is entered, the second frame shows at the ends of the chains what the first one
holds in the available variables. -/
theorem runFrom_uncopied
    (hblocks : List.Forall₂ (Block.Uncopied next resolve) g.blocks.toList g'.blocks.toList)
    (fuel : Nat) (b : BlockId) {frame frame' : Frame} (hsize : frame.size = g.varCount)
    (h : ∀ block, g.block? b = some block →
      Frame.Resolves resolve (g.Available b block (some 0)) frame frame') :
    Run.Agree Eq (fun _ _ => True) (g.runFrom env fuel b frame) (g'.runFrom env fuel b frame') := by
  induction fuel generalizing b frame frame' with
  | zero => exact .outOfFuel
  | succ fuel ih =>
    rw [runFrom, runFrom]
    rcases hb : g.block? b with _ | block
    · exact .bind (agree_ofGraph_block_none hb (block?_uncopied_none hblocks hb)) fun _ _ hnever =>
        hnever.elim
    obtain ⟨block', hb', hsame⟩ := exists_uncopied hblocks hb
    rw [Run.ofGraph_block hb, Run.ofGraph_block hb', pure_bind, pure_bind, hsame.body]
    refine .bind (runStatements_uncopied hcoherent hg hcopies hreached hends hb 0 block.body
      rfl hsize (h block hb))
      fun frame₁ frame₁' hframes => ?_
    obtain ⟨hsize₁, h₁⟩ := hframes
    -- what a branch reads is available at the end of the block, where the frames agree through the
    -- chains
    have huses : ∀ br ∈ block.branches, ∀ v ∈ br.uses,
        g.Available b block none v := fun br hbr v hv before hw =>
      hg.branch b block before hb hw br hbr v hv
    have htaken := taken?_uncopied h₁ hsame.branches fun br hbr c hc =>
      huses br hbr c (List.mem_append_left _ (Option.mem_toList.2 hc))
    refine .bind (.ofExcept htaken) fun taken taken' hrel => ?_
    cases hrel with
    | none => exact .refl _
    | @some br br' hbr =>
    obtain ⟨hmem, hbr⟩ := hbr
    have hargs : Operand.evalAll env frame₁' br'.args = Operand.evalAll env frame₁ br.args := by
      rw [hbr.args]
      exact evalAll_map fun op hop => h₁.eval hends env fun v hv =>
        huses br hmem v (List.mem_append_right _ (List.mem_filterMap.2 ⟨op, hop, hv⟩))
    dsimp only
    rw [hargs, hbr.target]
    refine .bind (agree_evalAll env frame₁ br.args) fun passed passed' hpassed => ?_
    obtain ⟨rfl, hlen⟩ := hpassed
    have hbalanced := hg.balanced b block hb br hmem
    rcases htarget : br.target with t | _
    · rw [htarget] at hbalanced
      obtain ⟨other, ht, hcount⟩ := hbalanced
      obtain ⟨other', ht', hsame'⟩ := exists_uncopied hblocks ht
      have hfollows : t ∈ block.targets :=
        List.mem_filterMap.2 ⟨br, hmem, by rw [Branch.block?, htarget]⟩
      dsimp only
      rw [Run.ofGraph_block ht, Run.ofGraph_block ht', pure_bind, pure_bind, hsame'.paramVars]
      refine ih t ((Frame.size_bind _ _ _).trans hsize₁) fun found hfound => ?_
      obtain rfl := Option.some.inj (ht.symm.trans hfound)
      exact bind_uncopied hcoherent hg hcopies hreached hends hb ht hfollows hsize₁ h₁
        (hlen.trans hcount)
    · exact .refl _

/-- **A call of the graph without its copies** does what a call of the graph does. -/
theorem invoke_uncopied
    (hblocks : List.Forall₂ (Block.Uncopied next resolve) g.blocks.toList g'.blocks.toList)
    (hprovenance : g'.provenance = g.provenance) (hcount : g'.varCount = g.varCount) (fuel : Nat)
    (args : List Value) : g'.invoke env fuel args = g.invoke env fuel args := by
  have hself : g'.self? = g.self? := by rw [self?, self?, hprovenance]
  have hparams : g'.entry.params = g.entry.params := by
    rw [entry_eq, entry_eq]
    rcases hb : g.block? .entry with _ | block
    · rw [block?_uncopied_none hblocks hb]
    · obtain ⟨block', hb', hsame⟩ := exists_uncopied hblocks hb
      rw [hb']
      exact hsame.params
  have harity : g'.arity = g.arity := by rw [arity, arity, hself, hparams]
  rw [invoke, invoke, harity, hself]
  split
  · next hargs =>
    have harguments : g'.arguments = g.arguments := congrArg (List.map Prod.fst) hparams
    rw [run, run, startFrame, startFrame, harguments, hcount]
    refine (runFrom_uncopied hcoherent hg hcopies hreached hends hblocks fuel .entry ?_ ?_).eq.symm
    · rw [Frame.size_bind, Array.size_replicate]
    · intro block hb
      have hvars : g.arguments = block.paramVars := by rw [arguments, entry_of_block? hb]
      -- nothing is known of the blank frame
      have hblank : Frame.Resolves resolve (fun _ => False) (Array.replicate g.varCount .nothing)
          (Array.replicate g.varCount .nothing) := ⟨rfl, fun _ => False.elim⟩
      refine hblank.bind (length_arguments_le hargs) (fun v hv => ?_) (fun v hv => ?_)
        fun v hv hparam => ?_
      · rw [Array.size_replicate]
        exact hcoherent.lt_varCount
          (mem_boundVars_of_block? hb (List.mem_append_left _ (hvars ▸ hv)))
      · exact (hends (.var v)).eq_of_next (hcopies.next_param hcoherent hb (hvars ▸ hv))
      · -- the walk that begins has bound the parameters only
        refine absurd ((hv [] .start).resolve_left List.not_mem_nil) ?_
        simpa [Block.boundAt, ← hvars] using hparam
  · rfl

end Runs

end Graph

end Interpose
