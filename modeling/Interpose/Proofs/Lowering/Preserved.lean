import Interpose.Proofs.Lowering.Execution
import Interpose.Proofs.Lowering.Whole

/-!
# A function does what its graph does

A run of a function's tree begins with the parameters assigned, and one of its graph with the
entry's parameters. From there both go through the body. A body that ends with an expression gives
back its value, as if there were a return, and so does a body that falls off its end with `nothing`.
-/

set_option autoImplicit false

namespace Interpose

open Source

variable {σ : Type}

/-! ## The end of a body -/

namespace Source

theorem Stmt.arePlain_iff {body : List Stmt} : Stmt.ArePlain body ↔ ∀ st ∈ body, st.IsPlain := by
  induction body with
  | nil => exact ⟨fun _ => nofun, fun _ => trivial⟩
  | cons st rest ih => rw [Stmt.ArePlain, ih, List.forall_mem_cons]

/-- What is given back when a function's statements have ended. -/
def Outcome.result : Outcome → Run σ Value
  | .next _ => return .nothing
  | .returned x => return x

/-- Statements are run one part after the other. -/
theorem execAll_append (env : Surroundings σ) (fuel : Nat) (bound : Names) (store : Store)
    (before after : List Stmt) : Stmt.execAll env fuel bound store (before ++ after)
      = Stmt.execAll env fuel bound store before >>= fun outcome => match outcome with
      | .next store => Stmt.execAll env fuel (Stmt.boundAfterAll bound before) store after
      | .returned x => pure (.returned x) := by
  induction before generalizing bound store with
  | nil => rw [List.nil_append, Stmt.execAll, pure_bind, Stmt.boundAfterAll]
  | cons st rest ih =>
    rw [List.cons_append, Stmt.execAll, Stmt.execAll, bind_assoc]
    congr 1
    funext outcome
    cases outcome with
    | next store => exact ih _ store
    | returned x => rfl

/-- The names from outside of one part are among those of the whole. -/
theorem mem_globalsAll_append {bound : Names} {before after : List Stmt} {n : String} :
    (n ∈ Stmt.globalsAll bound before → n ∈ Stmt.globalsAll bound (before ++ after))
      ∧ (Stmt.returnsAll before = false →
        n ∈ Stmt.globalsAll (Stmt.boundAfterAll bound before) after →
        n ∈ Stmt.globalsAll bound (before ++ after)) := by
  induction before generalizing bound with
  | nil => exact ⟨fun h => absurd h List.not_mem_nil, fun _ h => h⟩
  | cons st rest ih =>
    obtain ⟨ihleft, ihright⟩ := @ih (st.boundAfter bound)
    rw [List.cons_append, Stmt.globalsAll, Stmt.globalsAll, Stmt.returnsAll, Names.mem_union,
      Names.mem_union]
    rcases hst : st.returns with _ | _
    · exact ⟨Or.imp_right ihleft, fun hreturns h => .inr (ihright hreturns h)⟩
    · exact ⟨id, fun hreturns => absurd hreturns.symm Bool.false_ne_true⟩

end Source

namespace Chart

/-- The body with the value at its end given back, up to the return that falls off it. -/
theorem givingLast_eq (body : List Stmt) :
    (∃ front line e, body = front ++ [.expr line e] ∧ splitResult body = (front, some (line, e))
        ∧ givingLast body = front ++ [.giveBack line e])
      ∨ splitResult body = (body, none) ∧ givingLast body = body := by
  have hlast : ∀ (front : List Stmt) (st : Stmt), givingLast (front ++ [st])
      = front ++ givingLast [st] := by
    intro front st
    induction front with
    | nil => rfl
    | cons st' front ih =>
      have hne : front ++ [st] ≠ [] := by simp
      obtain ⟨st'', rest, heq⟩ := List.exists_cons_of_ne_nil hne
      rw [List.cons_append, heq, List.cons_append, ← ih, heq]
      cases st' <;> rfl
  rcases List.eq_nil_or_concat body with rfl | ⟨front, st, rfl⟩
  · exact .inr ⟨rfl, rfl⟩
  · rw [List.concat_eq_append, hlast, splitResult, List.getLast?_concat]
    cases st with
    | expr line e => exact .inl ⟨front, line, e, rfl, by rw [List.dropLast_concat], rfl⟩
    | _ => exact .inr ⟨rfl, rfl⟩

/-- What the run of a body gives back: what its statements return, or its last return. -/
theorem execAll_givingLast (env : Surroundings σ) (fuel : Nat) (bound : Names) (store : Store)
    (body : List Stmt) :
    Stmt.execAll env fuel bound store (givingLast body) >>= Outcome.result
      = Stmt.execAll env fuel bound store (splitResult body).1 >>= fun outcome => match outcome with
        | .next store => (lastReturn (splitResult body).2).exec env fuel
            (Stmt.boundAfterAll bound (splitResult body).1) store >>= Outcome.result
        | .returned x => pure x := by
  rcases givingLast_eq body with ⟨front, line, e, -, hsplit, hlast⟩ | ⟨hsplit, hlast⟩
  · rw [hsplit, hlast, execAll_append, bind_assoc]
    congr 1
    funext outcome
    cases outcome with
    | next store =>
      dsimp only
      rw [Stmt.execAll, bind_assoc]
      congr 1
      funext outcome
      cases outcome <;> rfl
    | returned x => rfl
  · -- behind the last statement `nothing` is given back in both
    rw [hsplit, hlast]
    congr 1

/-! ## The beginning -/

/-- Names that are bound to new variables in order hold what is assigned to them in order. -/
theorem holds_params {globals : String → Option Value} {m : Registers} (names : List String)
    {args : List Value} (hlen : args.length = names.length) {i : Nat} {env : Bindings}
    {store : Store} (hm : ∀ (j : Nat) x, args[j]? = some x → m ⟨i + j⟩ = some x)
    (h : ∀ n op, env.get? n = some op → op.Holds globals m (look store n)) {n : String}
    {op : Operand} (hget : (threadEnv (fun _ => none) (fun _ => true) i env names).get? n
      = some op) :
    op.Holds globals m (look (store.setAll names args) n) := by
  induction names generalizing args i env store with
  | nil => exact h n op hget
  | cons k ks ih =>
    obtain ⟨x, xs, rfl⟩ := List.exists_cons_of_length_eq_add_one hlen
    refine ih (Nat.succ.inj hlen) (fun j y hj => ?_) (fun n' op' hget' => ?_) hget
    · have hnext := hm (j + 1) y hj
      rw [Nat.add_right_comm]
      exact hnext
    · -- a name that comes twice holds the later argument in both
      rw [Bindings.get?_bind] at hget'
      rw [look, Store.set]
      by_cases hk : k = n'
      · rw [if_pos hk] at hget'
        obtain rfl := Option.some.inj hget'
        rw [if_pos hk]
        exact hm 0 x rfl
      · rw [if_neg hk] at hget'
        rw [if_neg hk]
        exact h n' op' hget'

/-- Only the names themselves are assigned. -/
theorem mem_of_setAll (names : List String) {args : List Value} {store : Store} {n : String}
    (h : (store.setAll names args n).isSome) : n ∈ names ∨ (store n).isSome := by
  induction names generalizing args store with
  | nil => exact .inr h
  | cons k ks ih =>
    cases args with
    | nil => exact .inr h
    | cons x xs =>
      rcases ih h with hmem | hset
      · exact .inl (List.mem_cons_of_mem k hmem)
      · rw [Store.set] at hset
        by_cases hk : k = n
        · exact .inl (hk ▸ List.mem_cons_self)
        · rw [if_neg hk] at hset
          exact .inr hset

theorem tracks_start (d : Source.Function) (file : String) (live : Names) :
    (start d.params file).Tracks live d.bound := by
  have hcases := get?_threadEnv (fun _ => none) (fun _ => true) d.params [] 1
  refine ⟨fun n op hget => ?_, fun n _ => ?_⟩
  · rcases hcases n with ⟨hnone, -⟩ | ⟨-, _, hpick, -⟩ | ⟨-, -, -, j, -, hnew⟩
    · cases hnone.symm.trans hget
    · cases hpick
    · obtain rfl := Option.some.inj (hnew.symm.trans hget)
      trivial
  · have hbound : n ∈ d.bound ↔ n ∈ d.params := by simp [Function.bound]
    rw [hbound]
    rcases hcases n with ⟨hnone, hnot⟩ | ⟨-, _, hpick, -⟩ | ⟨hmem, -, -, j, -, hnew⟩
    · have hget : (start d.params file).env.get? n = none := hnone
      rw [hget]
      exact ⟨fun hmem => (nomatch (hnot hmem).2), nofun⟩
    · cases hpick
    · have hget : (start d.params file).env.get? n = some (.var ⟨1 + j⟩) := hnew
      rw [hget]
      exact ⟨fun _ => rfl, fun _ => hmem⟩

end Chart

namespace Pairing

variable {w : Pairing σ} {c c' : Chart} {m : Registers} {fuel : Option Nat} {live bound : Names}
  {store : Store}

/-- At the beginning of a function the names of the parameters stand for the arguments. -/
theorem At.start {d : Source.Function} (file : String) {args : List Value} (self : Value)
    (hargs : args.length = d.params.length) (hfuel : w.lag.Allows w.rounds fuel) (live : Names) :
    w.At (Chart.start d.params file) (Registers.bind (fun _ => none)
      ((Graph.newParams 0 (d.params.length + 1)).map Prod.fst) (self :: args)) fuel live d.bound
      (Store.empty.setAll d.params args) := by
  refine ⟨Chart.ready_start _ _, Chart.tracks_start d file live,
    ⟨fun n _ op hget => ?_, fun n hn => ?_⟩, hfuel⟩
  · refine Chart.holds_params d.params hargs (fun j x hj => ?_)
      (fun _ _ hnone => by cases hnone) hget
    have hlt : j < args.length := (List.getElem?_eq_some_iff.1 hj).1
    have hparam := Registers.bind_newParams (fun _ => none) 0 (d.params.length + 1) (self :: args)
      (j := 1 + j) (x := x) (by omega) (by rw [Nat.add_comm]; exact hj)
    rw [Nat.zero_add] at hparam
    exact hparam
  · rcases Chart.mem_of_setAll d.params hn with hmem | hnone
    · simpa [Function.bound] using hmem
    · cases hnone

/-- **A whole body is gone through**, from its first statement to what it gives back. -/
theorem along_whole (hw : w.Keeps) {body : List Stmt} (hl : Chart.LowersWhole body c c')
    (hbody : Stmt.ArePlain body) (hg : c'.graph.Grows w.graph)
    (hgrants : w.Grants (Stmt.globalsAll bound (givingLast body)))
    (hat : ∀ live, w.At c m fuel live bound store) :
    w.Along (Stmt.execAll w.env w.rounds bound store (givingLast body) >>= Outcome.result)
      (w.place c fuel m) := by
  have hclosed := (hl.continues (hat []).ready).2
  obtain ⟨c₁, hlbody, hend⟩ := hl
  obtain ⟨h₁, hreturns⟩ := hlbody.continues (hat []).ready
  rw [Chart.execAll_givingLast]
  -- the parts of the body are plain, and take their names from the table
  obtain ⟨hbefore, hlast, hbeforeGrants, hlastGrants, hlive⟩ : Stmt.ArePlain (splitResult body).1
      ∧ (Chart.lastReturn (splitResult body).2).IsPlain
      ∧ w.Grants (Stmt.globalsAll bound (splitResult body).1)
      ∧ (c₁.closed = false → w.Grants ((Chart.lastReturn (splitResult body).2).globals
        (Stmt.boundAfterAll bound (splitResult body).1)))
      ∧ ∀ n ∈ Names.union ((Chart.lastReturn (splitResult body).2).addReads []) [],
        n ∈ Chart.resultNames (splitResult body).2 := by
    have hall := Stmt.arePlain_iff.1 hbody
    rcases Chart.givingLast_eq body with ⟨front, line, e, heq, hsplit, hgiven⟩ | ⟨hsplit, hgiven⟩
    · rw [hgiven] at hgrants
      rw [hsplit] at hreturns ⊢
      rw [heq] at hall
      refine ⟨Stmt.arePlain_iff.2 fun st hst => hall st (List.mem_append_left _ hst),
        hall (.expr line e) (List.mem_append_right _ List.mem_cons_self),
        hgrants.mono fun n hn => mem_globalsAll_append.1 hn,
        fun hopen => hgrants.mono fun n hn => ?_, fun n hn => ?_⟩
      · refine mem_globalsAll_append.2 (hreturns.symm.trans hopen) ?_
        rw [Stmt.globalsAll, Names.mem_union]
        exact .inl hn
      · rcases (Names.mem_union ..).1 hn with hn | hn
        · exact hn
        · cases hn
    · rw [hgiven] at hgrants
      rw [hsplit]
      refine ⟨hbody, trivial, hgrants, fun _ n hn => ?_, fun n hn => ?_⟩
      · cases hn
      · cases hn
  have hg₁ : c₁.graph.Grows w.graph := by
    by_cases hopen : c₁.closed = true
    · rw [if_pos hopen] at hend
      exact hend ▸ hg
    · rw [if_neg hopen] at hend
      exact (hend.continues (h₁.ready (by simpa using hopen))).1.advances.graph.trans hg
  refine passesBody hw hbefore hlbody hg₁ hbeforeGrants (hat _) _ (fun x => Run.Along.pure rfl)
    fun m₁ fuel₁ store₁ hopen hthrough => ?_
  rw [if_neg (by rw [hopen]; exact Bool.false_ne_true)] at hend
  refine passesStmt hw hlast hend hg (hlastGrants hopen) (hthrough.arrived.mono hlive) _
    (fun x => Run.Along.pure rfl) fun _ _ _ hopen' => ?_
  cases hclosed.symm.trans hopen'

end Pairing

end Interpose
