import Interpose.Proofs.Lowering.Onward
import Interpose.Proofs.Run.Safety

/-!
# Runs that end

What is given fuel is one run for every fuel. It *ends* from a state if all these runs that do end,
end in the same way, and all with enough fuel do. How much is enough may depend on the state. Ending
goes through sequences, with what is known of the states and of the values in between, so a program
is shown to end step by step.

A graph whose branches all lead on enters no block twice. So it ends if the calls that it makes do.
-/

set_option autoImplicit false

namespace Interpose

variable {σ α β : Type}

namespace Run

/-- From the state the run ends in this way and in no other. -/
structure EndsFrom (x : Nat → Run σ α) (s : σ) (r : Except Fault α) (s' : σ) : Prop where
  only : ∀ n, x n s = none ∨ x n s = some (r, s')
  enough : ∃ m, ∀ n, m ≤ n → x n s = some (r, s')

/-- From every state with the property the run ends in one, with a fault or with a value of which
`Q` holds. -/
def Ends (P : σ → Prop) (Q : α → Prop) (x : Nat → Run σ α) : Prop :=
  ∀ s, P s → ∃ r s', EndsFrom x s r s' ∧ P s' ∧ ∀ a, r = .ok a → Q a

/-- A run ends from every state with the property. -/
abbrev EndsIn (P : σ → Prop) (x : Nat → Run σ α) : Prop := Ends P (fun _ => True) x

namespace EndsFrom

variable {x : Nat → Run σ α} {s s' : σ} {r : Except Fault α}

/-- What a run with some fuel ends with is what it ends with. -/
theorem eq_of_some (h : EndsFrom x s r s') {n : Nat} {p : Except Fault α × σ}
    (hp : x n s = some p) : p = (r, s') := by
  rcases h.only n with hn | hn
  · rw [hn] at hp
    cases hp
  · rw [hn] at hp
    exact (Option.some.inj hp).symm

/-- A run that needs no fuel. -/
theorem const {y : Run σ α} (hy : y s = some (r, s')) : EndsFrom (fun _ => y) s r s' :=
  ⟨fun _ => .inr hy, 0, fun _ _ => hy⟩

/-- The fuel may be counted from one on. -/
theorem tail (h : EndsFrom x s r s') : EndsFrom (fun n => x (n + 1)) s r s' := by
  obtain ⟨m, hm⟩ := h.enough
  exact ⟨fun n => h.only (n + 1), m, fun n hn => hm (n + 1) (Nat.le_succ_of_le hn)⟩

theorem of_tail (hzero : x 0 s = none) (h : EndsFrom (fun n => x (n + 1)) s r s') :
    EndsFrom x s r s' := by
  obtain ⟨m, hm⟩ := h.enough
  refine ⟨fun n => ?_, m + 1, fun n hn => ?_⟩
  · cases n with
    | zero => exact .inl hzero
    | succ n => exact h.only n
  · obtain ⟨n, rfl⟩ :=
      Nat.exists_eq_add_one_of_ne_zero (Nat.ne_of_gt (Nat.lt_of_lt_of_le (Nat.succ_pos m) hn))
    exact hm n (Nat.le_of_succ_le_succ hn)

/-- The runs are changed in the same way at their ends. -/
theorem map {τ : Type} {y : Nat → Run τ β} {t : τ} (f : Except Fault α × σ → Except Fault β × τ)
    (hy : ∀ n, y n t = (x n s).map f) (h : EndsFrom x s r s') :
    EndsFrom y t (f (r, s')).1 (f (r, s')).2 := by
  obtain ⟨m, hm⟩ := h.enough
  refine ⟨fun n => ?_, m, fun n hn => ?_⟩
  · rw [hy]
    rcases h.only n with hn | hn
    · exact .inl (by rw [hn]; rfl)
    · exact .inr (by rw [hn]; rfl)
  · rw [hy, hm n hn]
    rfl

/-- A fault ends what would come after. -/
theorem bind_error {f : Nat → α → Run σ β} {e : Fault} (h : EndsFrom x s (.error e) s') :
    EndsFrom (fun n => x n >>= f n) s (.error e) s' := by
  obtain ⟨m, hm⟩ := h.enough
  refine ⟨fun n => ?_, m, fun n hn => ?_⟩
  · rw [bind_apply]
    rcases h.only n with hn | hn
    · exact .inl (by rw [hn])
    · exact .inr (by rw [hn])
  · rw [bind_apply, hm n hn]

/-- One run after another ends when both do. The fuel has to be enough for either. -/
theorem bind_ok {f : Nat → α → Run σ β} {a : α} {s'' : σ} {r' : Except Fault β}
    (h : EndsFrom x s (.ok a) s') (h' : EndsFrom (fun n => f n a) s' r' s'') :
    EndsFrom (fun n => x n >>= f n) s r' s'' := by
  obtain ⟨m, hm⟩ := h.enough
  obtain ⟨m', hm'⟩ := h'.enough
  refine ⟨fun n => ?_, max m m', fun n hn => ?_⟩
  · rw [bind_apply]
    rcases h.only n with hn | hn
    · exact .inl (by rw [hn])
    · rw [hn]
      exact h'.only n
  · rw [bind_apply, hm n (Nat.le_trans (Nat.le_max_left m m') hn)]
    exact hm' n (Nat.le_trans (Nat.le_max_right m m') hn)

end EndsFrom

namespace Ends

variable {P : σ → Prop} {Q : α → Prop} {Q' : β → Prop} {x : Nat → Run σ α}

theorem ofExcept {r : Except Fault α} (hr : ∀ a, r = .ok a → Q a) :
    Ends P Q fun _ => Run.ofExcept r :=
  fun s hs => ⟨r, s, .const rfl, hs, hr⟩

theorem ofGraph {r : Except GraphError α} (hr : ∀ a, r = .ok a → Q a) :
    Ends P Q fun _ => Run.ofGraph r := by
  refine ofExcept fun a ha => hr a ?_
  rcases r with e | b
  · cases ha
  · exact congrArg Except.ok (Except.ok.inj ha)

theorem pure {a : α} (ha : Q a) : Ends P Q fun _ => Pure.pure a :=
  ofExcept fun _ hb => Except.ok.inj hb ▸ ha

theorem throw (e : Fault) : Ends P Q fun _ => (throw e : Run σ α) := ofExcept nofun

theorem modify {f : σ → σ} (hf : ∀ s, P s → P (f s)) : EndsIn P fun _ => (modify f : Run σ PUnit) :=
  fun s hs => ⟨.ok ⟨⟩, f s, .const rfl, hf s hs, fun _ _ => trivial⟩

theorem bind {f : Nat → α → Run σ β} (hx : Ends P Q x) (hf : ∀ a, Q a → Ends P Q' fun n => f n a) :
    Ends P Q' fun n => x n >>= f n := by
  intro s hs
  obtain ⟨e | a, s', hends, hs', hr⟩ := hx s hs
  · exact ⟨.error e, s', hends.bind_error, hs', nofun⟩
  · obtain ⟨r, s'', hends', hs'', hr'⟩ := hf a (hr a rfl) s' hs'
    exact ⟨r, s'', hends.bind_ok hends', hs'', hr'⟩

/-- A run that depends on the state where it begins. -/
theorem get {f : Nat → σ → Run σ α} (hf : ∀ s, P s → Ends P Q fun n => f n s) :
    Ends P Q fun n => get >>= f n := by
  intro s hs
  obtain ⟨r, s', hends, hs', hr⟩ := hf s hs s hs
  exact ⟨r, s', (EndsFrom.const (get_apply s)).bind_ok hends, hs', hr⟩

theorem observe (hx : Ends P Q x) :
    Ends P (fun r => ∀ a, r = .ok a → Q a) fun n => Run.observe (x n) := by
  intro s hs
  obtain ⟨r, s', hends, hs', hr⟩ := hx s hs
  refine ⟨.ok r, s', hends.map (fun p => (.ok p.1, p.2)) fun n => rfl, hs', fun a ha => ?_⟩
  cases ha
  exact hr

/-- Whatever fuel a run ends with, it ends in a state with the property. -/
theorem keeps (h : Ends P Q x) {s s' : σ} (hs : P s) {n : Nat} {r : Except Fault α}
    (hrun : x n s = some (r, s')) : P s' := by
  obtain ⟨r', s'', hends, hs'', -⟩ := h s hs
  obtain ⟨-, rfl⟩ := Prod.mk.inj (hends.eq_of_some hrun)
  exact hs''

theorem tail (h : Ends P Q x) : Ends P Q fun n => x (n + 1) := by
  intro s hs
  obtain ⟨r, s', hends, hs', hr⟩ := h s hs
  exact ⟨r, s', hends.tail, hs', hr⟩

theorem of_tail (hzero : ∀ s, x 0 s = none) (h : Ends P Q fun n => x (n + 1)) : Ends P Q x := by
  intro s hs
  obtain ⟨r, s', hends, hs', hr⟩ := h s hs
  exact ⟨r, s', .of_tail (hzero s) hends, hs', hr⟩

end Ends

end Run

open Run

/-! ## Surroundings whose calls end -/

/-- Calls end, and what global names stand for does not depend on the fuel. -/
structure Surroundings.Ends (P : σ → Prop) (env : Nat → Surroundings σ) : Prop where
  global : ∀ n, (env n).global = (env 0).global
  call : ∀ f args, EndsIn P fun n => (env n).call f args

variable {P : σ → Prop} {env : Nat → Surroundings σ}

theorem Surroundings.Ends.tail (h : Surroundings.Ends P env) :
    Surroundings.Ends P fun n => env (n + 1) :=
  ⟨fun n => (h.global (n + 1)).trans (h.global 1).symm, fun f args => (h.call f args).tail⟩

section

variable (h : Surroundings.Ends P env) (frame : Frame)

include h

theorem ends_operand (op : Operand) : EndsIn P fun n => op.eval (env n) frame := by
  cases op with
  | var v => exact .ofExcept fun _ _ => trivial
  | const x => exact .pure trivial
  | global name =>
    unfold Operand.eval
    simp only [h.global]
    refine .get fun s _ => ?_
    rcases (env 0).global s name with _ | x
    · exact .throw _
    · exact .pure trivial

theorem ends_operands (ops : List Operand) :
    EndsIn P fun n => Operand.evalAll (env n) frame ops := by
  induction ops with
  | nil => exact .pure trivial
  | cons op ops ih =>
    exact (ends_operand h frame op).bind fun x _ => ih.bind fun xs _ => .pure trivial

theorem ends_operation (e : Operation) : EndsIn P fun n => e.eval (env n) frame := by
  cases e with
  | operand op => exact ends_operand h frame op
  | call callee args =>
    exact (ends_operand h frame callee).bind fun f _ => (ends_operands h frame args).bind
      fun xs _ => h.call f xs

theorem ends_statements (body : List (Variable × Statement)) :
    EndsIn P fun n => runStatements (env n) frame body := by
  induction body generalizing frame with
  | nil => exact .pure trivial
  | cons st rest ih =>
    exact (ends_operation h frame st.2.operation).bind fun x _ => ih
      (frame.setIfInBounds st.1.index x)

end

/-- What is taken is one of the branches. -/
theorem mem_of_taken? {frame : Frame} {branches : List Branch} {br : Branch}
    (htaken : taken? frame branches = .ok (some br)) : br ∈ branches := by
  induction branches with
  | nil => cases htaken
  | cons first rest ih =>
    rcases hcondition : first.condition with _ | v
    all_goals rw [taken?, hcondition] at htaken
    · cases htaken
      exact List.mem_cons_self
    · dsimp only at htaken
      generalize frame.read v = read at htaken
      rcases read with e | x
      · cases htaken
      · have hrest : (x.asBool.mapError Fault.trap >>= fun holds =>
            if holds then taken? frame rest else pure (some first)) = .ok (some br) := htaken
        generalize x.asBool = holds at hrest
        rcases holds with e | _ | _
        · cases hrest
        · cases hrest
          exact List.mem_cons_self
        · exact List.mem_cons_of_mem first (ih hrest)

namespace Graph

variable {g : Graph}

theorem ends_block (b : BlockId) :
    Ends P (fun block => g.block? b = some block) fun _ =>
      (Run.ofGraph (g.block b) : Run σ Block) :=
  .ofGraph fun _ => block_eq_ok.1

/-- **A graph whose branches lead on ends** from every block, if the calls do. The blocks that are
entered come one after another in their order, so there are only so many. -/
theorem Forward.ends_runFrom (hg : g.Forward) (h : Surroundings.Ends P env) (b : BlockId)
    (frame : Frame) : EndsIn P fun n => g.runFrom (env n) n b frame := by
  induction hk : g.blocks.size - b.index using Nat.strongRecOn generalizing env b frame with
  | ind k ih =>
    have hrest := h.tail
    refine .of_tail (fun _ => rfl) ?_
    simp only [runFrom]
    refine (ends_block b).bind fun block hb => (ends_statements hrest frame block.body).bind
      fun frame _ => ?_
    have htaken : Ends P (fun found => ∀ br, found = some br → br ∈ block.branches) fun _ =>
        (Run.ofExcept (taken? frame block.branches) : Run σ (Option Branch)) :=
      .ofExcept fun found hfound br hbr => mem_of_taken? (hbr ▸ hfound)
    refine htaken.bind fun found hfound => ?_
    rcases found with _ | br
    · exact .throw _
    refine (ends_operands hrest frame br.args).bind fun passed _ => ?_
    rcases htarget : br.target with t | _
    · refine (ends_block t).bind fun next _ => ?_
      -- the next block has a higher number, of which there are fewer left
      have hlt : b.index < t.index :=
        hg b t ⟨block, hb, List.mem_filterMap.2 ⟨br, hfound br rfl, by rw [Branch.block?, htarget]⟩⟩
      have hsize : b.index < g.blocks.size := lt_size_of_block? hb
      exact ih (g.blocks.size - t.index) (by omega) hrest t _ rfl
    · exact .ofExcept fun _ _ => trivial

theorem Forward.ends_invoke (hg : g.Forward) (h : Surroundings.Ends P env) (args : List Value) :
    EndsIn P fun n => g.invoke (env n) n args := by
  unfold invoke
  split
  · exact hg.ends_runFrom h .entry _
  · exact .throw _

end Graph

end Interpose
