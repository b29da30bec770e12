import Mathlib.Data.List.Perm.Basic
import Interpose.Proofs.Source.Names

/-!
# The blocks of a program, read off its text

Lowering numbers blocks in the order in which it opens them, and which blocks it opens depends on
the syntax alone. So the text of a function says where each of its constructs begins and ends, and
which branches lead from block to block: this module follows the syntax with no more than a *spot*,
the block that is open and the number of blocks so far. What is behind a return is left out, as in
lowering.

Between two spots all branches start in the block that was open or in a later one and lead to new
blocks, in the order of their numbers, except that the last block of a loop's body leads back to the
loop's head. No branch enters the blocks of a loop from outside but at its head, so the head
dominates them. That is shown for one construct after another, where the numbers are all that
counts.
-/

set_option autoImplicit false

namespace Interpose.Source

/-! ## Spots -/

/-- A place in a function that is being lowered: the block that is open, and how many blocks there
are. -/
structure Spot where
  block : BlockId
  next : Nat
deriving Repr, DecidableEq

namespace Spot

/-- Where the body of a function begins. -/
def start : Spot := ⟨.entry, 1⟩

/-- The block that is opened next. -/
def fresh (s : Spot) : BlockId := ⟨s.next⟩

/-- In a new block. -/
def opened (s : Spot) : Spot := ⟨s.fresh, s.next + 1⟩

/-- In the first of two new blocks. -/
def onTrue (s : Spot) : Spot := ⟨s.fresh, s.next + 2⟩

/-- In the second of the two, when `a` is where the first one has led. -/
def onFalse (s a : Spot) : Spot := ⟨⟨s.next + 1⟩, a.next⟩

/-- The branches into two new blocks. -/
def fork (s : Spot) : List (BlockId × BlockId) := [(s.block, ⟨s.next + 1⟩), (s.block, s.fresh)]

/-- The branch into a block, unless the way there has returned. -/
def leadTo (s : Spot) (returned : Bool) (target : BlockId) : List (BlockId × BlockId) :=
  if returned then [] else [(s.block, target)]

end Spot

mutual

/-- Where an expression ends that begins at a spot. -/
def Expr.after : Expr → Spot → Spot
  | .name _, s | .lit _, s => s
  | .call callee args, s => Expr.afterAll args (callee.after s)
  | .choose cond onTrue onFalse, s =>
    let t := cond.after s
    (onFalse.after (t.onFalse (onTrue.after t.onTrue))).opened

def Expr.afterAll : List Expr → Spot → Spot
  | [], s => s
  | e :: es, s => Expr.afterAll es (e.after s)

end

mutual

/-- Where a statement ends that begins at a spot. -/
def Stmt.after : Stmt → Spot → Spot
  | .assign _ _ e, s | .giveBack _ e, s | .expr _ e, s => e.after s
  | .ifThen _ cond onTrue, s => (Stmt.afterAll onTrue (cond.after s).opened).opened
  | .ifElse _ cond onTrue onFalse, s =>
    let t := cond.after s
    let b := Stmt.afterAll onFalse (t.onFalse (Stmt.afterAll onTrue t.onTrue))
    if Stmt.returnsAll onTrue && Stmt.returnsAll onFalse then b else b.opened
  | .whileLoop _ cond body, s =>
    let t := cond.after s.opened
    t.onFalse (Stmt.afterAll body t.onTrue)

def Stmt.afterAll : List Stmt → Spot → Spot
  | [], s => s
  | st :: rest, s => if st.returns then st.after s else Stmt.afterAll rest (st.after s)

end

/-! ## Branches -/

mutual

/-- The branches from block to block of an expression that begins at a spot. -/
def Expr.edges : Expr → Spot → List (BlockId × BlockId)
  | .name _, _ | .lit _, _ => []
  | .call callee args, s => callee.edges s ++ Expr.edgesAll args (callee.after s)
  | .choose cond onTrue onFalse, s =>
    let t := cond.after s
    let a := onTrue.after t.onTrue
    let b := onFalse.after (t.onFalse a)
    cond.edges s ++ (t.fork ++ onTrue.edges t.onTrue ++ onFalse.edges (t.onFalse a)
      ++ [(a.block, b.fresh), (b.block, b.fresh)])

def Expr.edgesAll : List Expr → Spot → List (BlockId × BlockId)
  | [], _ => []
  | e :: es, s => e.edges s ++ Expr.edgesAll es (e.after s)

end

mutual

/-- The branches from block to block of a statement that begins at a spot. -/
def Stmt.edges : Stmt → Spot → List (BlockId × BlockId)
  | .assign _ _ e, s | .giveBack _ e, s | .expr _ e, s => e.edges s
  | .ifThen _ cond onTrue, s =>
    let t := cond.after s
    let b := Stmt.afterAll onTrue t.opened
    cond.edges s ++ (Stmt.edgesAll onTrue t.opened
      ++ ([(t.block, b.fresh), (t.block, t.fresh)] ++ b.leadTo (Stmt.returnsAll onTrue) b.fresh))
  | .ifElse _ cond onTrue onFalse, s =>
    let t := cond.after s
    let a := Stmt.afterAll onTrue t.onTrue
    let b := Stmt.afterAll onFalse (t.onFalse a)
    cond.edges s ++ (t.fork ++ Stmt.edgesAll onTrue t.onTrue ++ Stmt.edgesAll onFalse (t.onFalse a)
      ++ (a.leadTo (Stmt.returnsAll onTrue) b.fresh ++ b.leadTo (Stmt.returnsAll onFalse) b.fresh))
  | .whileLoop _ cond body, s =>
    let t := cond.after s.opened
    let b := Stmt.afterAll body t.onTrue
    (s.block, s.fresh) :: (cond.edges s.opened ++ (t.fork ++ Stmt.edgesAll body t.onTrue))
      ++ b.leadTo (Stmt.returnsAll body) s.fresh

def Stmt.edgesAll : List Stmt → Spot → List (BlockId × BlockId)
  | [], _ => []
  | st :: rest, s => st.edges s ++ if st.returns then [] else Stmt.edgesAll rest (st.after s)

end

/-! ## Loops -/

/-- A loop of a function, with the block where a round begins and the block where its body ends. -/
structure Loop where
  body : List Stmt
  head : BlockId
  last : BlockId

namespace Loop

/-- Some way through the body gets to its end. -/
def repeats (l : Loop) : Bool := !Stmt.returnsAll l.body

/-- The branch that leads back. -/
def edge (l : Loop) : BlockId × BlockId := (l.last, l.head)

end Loop

mutual

/-- The loops of a statement that begins at a spot, each before the loops inside it. -/
def Stmt.loops : Stmt → Spot → List Loop
  | .assign _ _ _, _ | .giveBack _ _, _ | .expr _ _, _ => []
  | .ifThen _ cond onTrue, s => Stmt.loopsAll onTrue (cond.after s).opened
  | .ifElse _ cond onTrue onFalse, s =>
    let t := cond.after s
    Stmt.loopsAll onTrue t.onTrue
      ++ Stmt.loopsAll onFalse (t.onFalse (Stmt.afterAll onTrue t.onTrue))
  | .whileLoop _ cond body, s =>
    let t := cond.after s.opened
    ⟨body, s.fresh, (Stmt.afterAll body t.onTrue).block⟩ :: Stmt.loopsAll body t.onTrue

def Stmt.loopsAll : List Stmt → Spot → List Loop
  | [], _ => []
  | st :: rest, s => st.loops s ++ if st.returns then [] else Stmt.loopsAll rest (st.after s)

end

/-- The loops of a function, as far as anything can get to them. -/
def Function.loops (f : Function) : List Loop := Stmt.loopsAll f.body .start

/-- A last expression has no loops. -/
theorem Stmt.loopsAll_concat_expr (body : List Stmt) (line : Nat) (e : Expr) (s : Spot) :
    Stmt.loopsAll (body ++ [.expr line e]) s = Stmt.loopsAll body s := by
  induction body generalizing s with
  | nil => simp [loopsAll, loops]
  | cons st rest ih => rw [List.cons_append, loopsAll, loopsAll, ih]

/-- All loops of a function come before its result. -/
theorem Function.loops_eq (f : Function) :
    f.loops = Stmt.loopsAll (splitResult f.body).1 .start := by
  unfold Function.loops splitResult
  split
  · next line e hlast =>
    obtain ⟨front, hfront⟩ := List.getLast?_eq_some_iff.1 hlast
    rw [hfront, List.dropLast_concat, Stmt.loopsAll_concat_expr]
  · rfl

/-! ## Branches that respect loops -/

/-- The branch leads to its own block or an earlier one. -/
def leadsBack (e : BlockId × BlockId) : Bool := e.2.index ≤ e.1.index

/-- No branch gets from elsewhere to the blocks between `head` and `stop`. -/
def Gated (edges : List (BlockId × BlockId)) (head : BlockId) (stop : Nat) : Prop :=
  ∀ e ∈ edges, head.index < e.2.index → e.2.index < stop → head.index ≤ e.1.index ∧ e.1.index < stop

theorem Gated.append {edges edges' : List (BlockId × BlockId)} {head : BlockId} {stop : Nat}
    (h : Gated edges head stop) (h' : Gated edges' head stop) : Gated (edges ++ edges') head stop :=
  fun e he => (List.mem_append.1 he).elim (h e) (h' e)

/-- The loop is a part of the function that is entered at its head. -/
def Loop.Closed (l : Loop) (edges : List (BlockId × BlockId)) (first next : Nat) : Prop :=
  first ≤ l.head.index ∧ l.head.index ≤ l.last.index
    ∧ ∃ stop, stop ≤ next ∧ l.last.index < stop ∧ Gated edges l.head stop

/-- What lies between two spots: the branches that start and end there, and the loops. -/
structure Spans (s : Spot) (edges : List (BlockId × BlockId)) (loops : List Loop) (s' : Spot) :
    Prop where
  next_le : s.next ≤ s'.next
  block : s'.block = s.block ∨ s.next ≤ s'.block.index
  lt_next : s'.block.index < s'.next
  leaves : ∀ e ∈ edges, (e.1 = s.block ∨ s.next ≤ e.1.index) ∧ e.1.index < s'.next
  enters : ∀ e ∈ edges, s.next ≤ e.2.index ∧ e.2.index < s'.next
  back : (edges.filter leadsBack).Perm ((loops.filter Loop.repeats).map Loop.edge)
  loops : ∀ l ∈ loops, l.Closed edges s.next s'.next

namespace Spans

variable {s s' s'' : Spot} {edges edges' : List (BlockId × BlockId)} {loops loops' : List Loop}

theorem refl (h : s.block.index < s.next) : Spans s [] [] s :=
  ⟨Nat.le_refl _, .inl rfl, h, nofun, nofun, .refl _, nofun⟩

/-- The open block stays behind `n` if it was, and so do the starts of all branches. -/
theorem le_block {n : Nat} (h : Spans s edges loops s') (hs : n ≤ s.block.index) (hn : n ≤ s.next) :
    n ≤ s'.block.index := by
  rcases h.block with hblock | hblock
  · rwa [hblock]
  · exact Nat.le_trans hn hblock

theorem le_source {n : Nat} {e : BlockId × BlockId} (h : Spans s edges loops s')
    (hs : n ≤ s.block.index) (hn : n ≤ s.next) (he : e ∈ edges) : n ≤ e.1.index := by
  rcases (h.leaves e he).1 with hfrom | hfrom
  · rwa [hfrom]
  · exact Nat.le_trans hn hfrom

/-- One construct after another. Neither enters the loops of the other. -/
theorem trans (h : Spans s edges loops s') (h' : Spans s' edges' loops' s'') :
    Spans s (edges ++ edges') (loops ++ loops') s'' := by
  have hle := h.next_le
  have hle' := h'.next_le
  refine ⟨Nat.le_trans hle hle', ?_, h'.lt_next, fun e he => ?_, fun e he => ?_, ?_, fun l hl => ?_⟩
  · rcases h'.block with hblock | hblock
    · exact hblock ▸ h.block
    · exact .inr (Nat.le_trans hle hblock)
  · rcases List.mem_append.1 he with he | he
    · obtain ⟨hfrom, hlt⟩ := h.leaves e he
      exact ⟨hfrom, by omega⟩
    · obtain ⟨hfrom, hlt⟩ := h'.leaves e he
      refine ⟨?_, hlt⟩
      rcases hfrom with hfrom | hfrom
      · exact hfrom ▸ h.block
      · exact .inr (Nat.le_trans hle hfrom)
  · rcases List.mem_append.1 he with he | he
    · have := h.enters e he
      omega
    · have := h'.enters e he
      omega
  · rw [List.filter_append, List.filter_append, List.map_append]
    exact h.back.append h'.back
  · rcases List.mem_append.1 hl with hl | hl
    · obtain ⟨hhead, hlast, stop, hstop, hlt, hgated⟩ := h.loops l hl
      refine ⟨hhead, hlast, stop, by omega, hlt, hgated.append fun e he _ hbefore => ?_⟩
      -- what comes later leads to later blocks
      have := h'.enters e he
      omega
    · obtain ⟨hhead, hlast, stop, hstop, hlt, hgated⟩ := h'.loops l hl
      refine ⟨by omega, hlast, stop, hstop, hlt, Gated.append (fun e he hafter _ => ?_) hgated⟩
      -- what came before led to earlier blocks
      have := h.enters e he
      omega

/-- Branches that lead on, to the first new block or to one that is opened now. -/
theorem lead (h : Spans s edges loops s') (hnext : s'.next ≤ s''.next)
    (hblock : s.next ≤ s''.block.index) (hlt : s''.block.index < s''.next)
    (hnew : ∀ e ∈ edges', (e.1 = s.block ∨ s.next ≤ e.1.index) ∧ e.1.index < e.2.index
      ∧ (e.2.index = s.next ∨ s'.next ≤ e.2.index) ∧ e.2.index < s''.next) :
    Spans s (edges ++ edges') loops s'' := by
  have hle := h.next_le
  refine ⟨Nat.le_trans hle hnext, .inr hblock, hlt, fun e he => ?_, fun e he => ?_, ?_,
    fun l hl => ?_⟩
  · rcases List.mem_append.1 he with he | he
    · obtain ⟨hfrom, hbefore⟩ := h.leaves e he
      exact ⟨hfrom, by omega⟩
    · obtain ⟨hfrom, hon, -, hbefore⟩ := hnew e he
      exact ⟨hfrom, by omega⟩
  · rcases List.mem_append.1 he with he | he
    · have := h.enters e he
      omega
    · have := (hnew e he).2.2
      omega
  · have hnone : edges'.filter leadsBack = [] := List.filter_eq_nil_iff.2 fun e he => by
      have := (hnew e he).2.1
      simp only [leadsBack, decide_eq_true_eq]
      omega
    rw [List.filter_append, hnone, List.append_nil]
    exact h.back
  · obtain ⟨hhead, hlast, stop, hstop, hbefore, hgated⟩ := h.loops l hl
    refine ⟨hhead, hlast, stop, by omega, hbefore, hgated.append fun e he hafter hinside => ?_⟩
    -- the first new block is no inner block of a loop
    have := (hnew e he).2.2.1
    omega

/-- The first of two new blocks is entered. -/
theorem fork (h : s.block.index < s.next) : Spans s s.fork [] s.onTrue := by
  refine (refl h).lead (Nat.le_add_right _ 2) (Nat.le_refl _) (Nat.lt_add_of_pos_right (by decide))
    fun e he => ?_
  have hforked : e.1 = s.block ∧ (e.2.index = s.next ∨ e.2.index = s.next + 1) := by
    rcases List.mem_pair.1 he with rfl | rfl
    · exact ⟨rfl, .inr rfl⟩
    · exact ⟨rfl, .inl rfl⟩
  obtain ⟨hfrom, hto⟩ := hforked
  have hnext : s.onTrue.next = s.next + 2 := rfl
  rw [hfrom, hnext]
  exact ⟨.inl rfl, by omega, by omega, by omega⟩

/-- The second of two new blocks exists when the first arm has been lowered. -/
theorem second_lt {t a : Spot} (h : Spans t.onTrue edges loops a) :
    (t.onFalse a).block.index < (t.onFalse a).next := h.next_le

/-- Both arms of a fork. -/
theorem arms {t a b : Spot} (ht : t.block.index < t.next) (h : Spans t.onTrue edges loops a)
    (h' : Spans (t.onFalse a) edges' loops' b) :
    Spans t (t.fork ++ edges ++ edges') (loops ++ loops') b := by
  have hfirst := (fork ht).trans h
  have hsecond : Spans t (t.fork ++ edges ++ []) loops (t.onFalse a) :=
    hfirst.lead (Nat.le_refl _) (Nat.le_add_right _ 1) h.second_lt nofun
  rw [List.append_nil] at hsecond
  exact hsecond.trans h'

/-- Both arms of a fork, and what leads from their ends to a new block. -/
theorem join {t a b : Spot} {joins : List (BlockId × BlockId)} (ht : t.block.index < t.next)
    (h : Spans t.onTrue edges loops a) (h' : Spans (t.onFalse a) edges' loops' b)
    (hjoins : ∀ e ∈ joins, (e.1 = a.block ∨ e.1 = b.block) ∧ e.2 = b.fresh) :
    Spans t (t.fork ++ edges ++ edges' ++ joins) (loops ++ loops') b.opened := by
  have hle : a.next ≤ b.next := h'.next_le
  have htwo : t.next + 2 ≤ a.next := h.next_le
  have ha : t.next ≤ a.block.index ∧ a.block.index < a.next :=
    ⟨h.le_block (Nat.le_refl _) (Nat.le_add_right _ 2), h.lt_next⟩
  have hb : t.next ≤ b.block.index ∧ b.block.index < b.next :=
    ⟨h'.le_block (Nat.le_add_right _ 1) (Nat.le_trans (Nat.le_add_right _ 2) htwo), h'.lt_next⟩
  have hnew : b.opened.next = b.next + 1 := rfl
  have hblock : b.opened.block.index = b.next := rfl
  refine (arms ht h h').lead (Nat.le_succ _) (by omega) (Nat.lt_succ_self _) fun e he => ?_
  obtain ⟨hfrom, hto⟩ := hjoins e he
  have htarget : e.2.index = b.next := congrArg BlockId.index hto
  rcases hfrom with hfrom | hfrom
  all_goals
    rw [hfrom]
    omega

end Spans

theorem Spot.mem_leadTo {s : Spot} {returned : Bool} {target : BlockId} {e : BlockId × BlockId}
    (h : e ∈ s.leadTo returned target) : e = (s.block, target) := by
  unfold leadTo at h
  split at h
  · cases h
  · exact List.mem_singleton.1 h

/-- A single arm, and the way past it. -/
theorem Spans.only {t b : Spot} {edges : List (BlockId × BlockId)} {loops : List Loop}
    (ht : t.block.index < t.next) (h : Spans t.opened edges loops b) (returned : Bool) :
    Spans t (edges ++ ([(t.block, b.fresh), (t.block, t.fresh)] ++ b.leadTo returned b.fresh)) loops
      b.opened := by
  have hopened : Spans t [] [] t.opened :=
    (Spans.refl ht).lead (Nat.le_succ _) (Nat.le_refl _) (Nat.lt_succ_self _) nofun
  have harm := hopened.trans h
  have hle : t.next + 1 ≤ b.next := h.next_le
  have hlast : t.next ≤ b.block.index := h.le_block (Nat.le_refl _) (Nat.le_succ _)
  have hbefore := h.lt_next
  refine harm.lead (Nat.le_succ _) (Nat.le_of_succ_le hle) (Nat.lt_succ_self _) fun e he => ?_
  rcases List.mem_append.1 he with he | he
  · rcases List.mem_pair.1 he with rfl | rfl
    · exact ⟨.inl rfl, Nat.lt_trans ht hle, .inr (Nat.le_refl _), Nat.lt_succ_self _⟩
    · exact ⟨.inl rfl, ht, .inl rfl, Nat.lt_succ_of_lt hle⟩
  · obtain rfl := Spot.mem_leadTo he
    exact ⟨.inr hlast, hbefore, .inr (Nat.le_refl _), Nat.lt_succ_self _⟩

/-- The way into a loop, what is inside, and the way back. -/
theorem Spot.mem_round {s b : Spot} {inside : List (BlockId × BlockId)} {returned : Bool}
    {target : BlockId} {e : BlockId × BlockId}
    (h : e ∈ (s.block, target) :: inside ++ b.leadTo returned target) :
    e = (s.block, target) ∨ e ∈ inside ∨ e = (b.block, target) := by
  rcases List.mem_append.1 h with h | h
  · rcases List.mem_cons.1 h with h | h
    · exact .inl h
    · exact .inr (.inl h)
  · exact .inr (.inr (mem_leadTo h))

/-- Only the way back leads back, beside what does so inside. -/
theorem Spot.filter_round {s b : Spot} (hs : s.block.index < s.next) (hb : s.next ≤ b.block.index)
    (inside : List (BlockId × BlockId)) (returned : Bool) :
    ((s.block, s.fresh) :: inside ++ b.leadTo returned s.fresh).filter leadsBack
      = inside.filter leadsBack ++ b.leadTo returned s.fresh := by
  have happroach : ¬leadsBack (s.block, s.fresh) = true :=
    fun h => absurd (of_decide_eq_true h) (Nat.not_le.2 hs)
  have hback : (b.leadTo returned s.fresh).filter leadsBack = b.leadTo returned s.fresh :=
    List.filter_eq_self.2 fun e he => Spot.mem_leadTo he ▸ decide_eq_true hb
  rw [List.cons_append, List.filter_cons_of_neg happroach, List.filter_append, hback]

/-- **A loop is entered at its head only**, and its body leads back there unless it returns. -/
theorem Spans.whileLoop {s b : Spot} {exit : BlockId} {inside : List (BlockId × BlockId)}
    {loops : List Loop} (body : List Stmt) (hs : s.block.index < s.next)
    (hinside : Spans s.opened inside loops b) (hexit : s.next ≤ exit.index)
    (hlt : exit.index < b.next) :
    Spans s ((s.block, s.fresh) :: inside ++ b.leadTo (Stmt.returnsAll body) s.fresh)
      (⟨body, s.fresh, b.block⟩ :: loops) ⟨exit, b.next⟩ := by
  have hopened : s.opened.next = s.next + 1 := rfl
  have hhead : s.fresh.index = s.next := rfl
  have hnext : s.next < b.next := hinside.next_le
  -- all that is inside starts at the head or behind it, and leads behind the head
  have hsource : ∀ e ∈ inside, s.next ≤ e.1.index := fun e he =>
    hinside.le_source (Nat.le_refl _) (Nat.le_succ _) he
  have hlast : s.next ≤ b.block.index := hinside.le_block (Nat.le_refl _) (Nat.le_succ _)
  have hbefore := hinside.lt_next
  refine ⟨Nat.le_of_lt hnext, .inr hexit, hlt, fun e he => ?_, fun e he => ?_, ?_, fun l hl => ?_⟩
  · rcases Spot.mem_round he with rfl | he | rfl
    · exact ⟨.inl rfl, Nat.lt_trans hs hnext⟩
    · exact ⟨.inr (hsource e he), (hinside.leaves e he).2⟩
    · exact ⟨.inr hlast, hbefore⟩
  · rcases Spot.mem_round he with rfl | he | rfl
    · exact ⟨Nat.le_refl _, hnext⟩
    · have := hinside.enters e he
      dsimp only
      omega
    · exact ⟨Nat.le_refl _, hnext⟩
  · rw [Spot.filter_round hs hlast]
    unfold Spot.leadTo
    rcases hreturns : Stmt.returnsAll body with _ | _
    · rw [List.filter_cons_of_pos (by rw [Loop.repeats, hreturns]; rfl), List.map_cons,
        if_neg nofun]
      exact (hinside.back.append_right _).trans (List.perm_append_singleton _ _)
    · rw [List.filter_cons_of_neg (by rw [Loop.repeats, hreturns]; exact nofun), if_pos rfl,
        List.append_nil]
      exact hinside.back
  · rcases List.mem_cons.1 hl with rfl | hl
    · refine ⟨Nat.le_refl _, hlast, b.next, Nat.le_refl _, hbefore, fun e he hafter _ => ?_⟩
      rcases Spot.mem_round he with rfl | he | rfl
      · exact absurd hafter (Nat.lt_irrefl _)
      · exact ⟨hsource e he, (hinside.leaves e he).2⟩
      · exact absurd hafter (Nat.lt_irrefl _)
    · obtain ⟨hin, hround, stop, hstop, hend, hgated⟩ := hinside.loops l hl
      refine ⟨by omega, hround, stop, hstop, hend, fun e he hafter hinner => ?_⟩
      -- the head of the outer loop comes before the inner one
      rcases Spot.mem_round he with rfl | he | rfl
      · dsimp only at hafter
        omega
      · exact hgated e he hafter hinner
      · dsimp only at hafter
        omega

mutual

/-- **The branches of an expression lead on.** -/
theorem Expr.spans : ∀ (e : Expr) (s : Spot), s.block.index < s.next →
    Spans s (e.edges s) [] (e.after s)
  | .name _, s, h => .refl h
  | .lit _, s, h => .refl h
  | .call callee args, s, h => by
    have hcallee := Expr.spans callee s h
    exact hcallee.trans (Expr.spansAll args _ hcallee.lt_next)
  | .choose cond onTrue onFalse, s, h => by
    have hcond := Expr.spans cond s h
    have htrue := Expr.spans onTrue _ (Spans.fork hcond.lt_next).lt_next
    have hfalse := Expr.spans onFalse _ htrue.second_lt
    refine hcond.trans (Spans.join hcond.lt_next htrue hfalse fun e he => ?_)
    rcases List.mem_pair.1 he with rfl | rfl
    · exact ⟨.inl rfl, rfl⟩
    · exact ⟨.inr rfl, rfl⟩

theorem Expr.spansAll : ∀ (es : List Expr) (s : Spot), s.block.index < s.next →
    Spans s (Expr.edgesAll es s) [] (Expr.afterAll es s)
  | [], s, h => .refl h
  | e :: es, s, h => by
    have hfirst := Expr.spans e s h
    exact hfirst.trans (Expr.spansAll es _ hfirst.lt_next)

end

mutual

/-- **The branches of a statement lead on**, except those that lead back in its loops. -/
theorem Stmt.spans : ∀ (st : Stmt) (s : Spot), s.block.index < s.next →
    Spans s (st.edges s) (st.loops s) (st.after s)
  | .assign _ _ e, s, h => e.spans s h
  | .giveBack _ e, s, h => e.spans s h
  | .expr _ e, s, h => e.spans s h
  | .ifThen _ cond onTrue, s, h => by
    have hcond := cond.spans s h
    have hbody := Stmt.spansAll onTrue (cond.after s).opened (Nat.lt_succ_self _)
    exact hcond.trans (hbody.only hcond.lt_next (Stmt.returnsAll onTrue))
  | .ifElse _ cond onTrue onFalse, s, h => by
    have hcond := cond.spans s h
    have htrue := Stmt.spansAll onTrue _ (Spans.fork hcond.lt_next).lt_next
    have hfalse := Stmt.spansAll onFalse _ htrue.second_lt
    refine hcond.trans ?_
    rw [Stmt.after]
    by_cases hreturns : (Stmt.returnsAll onTrue && Stmt.returnsAll onFalse) = true
    · -- no way leads on
      obtain ⟨htrue', hfalse'⟩ := Bool.and_eq_true_iff.1 hreturns
      rw [if_pos hreturns, htrue', hfalse', Spot.leadTo, Spot.leadTo, if_pos rfl, if_pos rfl,
        List.append_nil, List.append_nil]
      exact Spans.arms hcond.lt_next htrue hfalse
    · rw [if_neg hreturns]
      refine Spans.join hcond.lt_next htrue hfalse fun e he => ?_
      rcases List.mem_append.1 he with he | he
      · obtain rfl := Spot.mem_leadTo he
        exact ⟨.inl rfl, rfl⟩
      · obtain rfl := Spot.mem_leadTo he
        exact ⟨.inr rfl, rfl⟩
  | .whileLoop _ cond body, s, h => by
    have hcond := cond.spans s.opened (Nat.lt_succ_self _)
    have hfork := Spans.fork hcond.lt_next
    have hbody := Stmt.spansAll body _ hfork.lt_next
    have hhead : s.next + 1 ≤ (cond.after s.opened).next := hcond.next_le
    exact .whileLoop body h (hcond.trans (hfork.trans hbody)) (Nat.le_trans (Nat.le_succ _)
      (Nat.le_succ_of_le hhead)) hbody.second_lt

theorem Stmt.spansAll : ∀ (body : List Stmt) (s : Spot), s.block.index < s.next →
    Spans s (Stmt.edgesAll body s) (Stmt.loopsAll body s) (Stmt.afterAll body s)
  | [], s, h => .refl h
  | st :: rest, s, h => by
    have hfirst := Stmt.spans st s h
    rw [Stmt.edgesAll, Stmt.loopsAll, Stmt.afterAll]
    split
    · rw [List.append_nil, List.append_nil]
      exact hfirst
    · exact hfirst.trans (Stmt.spansAll rest _ hfirst.lt_next)

end

end Interpose.Source
