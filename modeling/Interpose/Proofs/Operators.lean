import Interpose.Proofs.Lowering.Calls
import Interpose.Proofs.Source.Words

/-!
# What operators call

An operator is written as a call of its name, and a name that a function binds is no longer that of
the global. The names of most operators cannot be bound: they are no words. The sign is the
exception. It calls `neg`, which is a word like any other, and so a function that binds `neg` has
its signs call what it has bound. Wherever that is not so, every operator calls the global of its
name.
-/

set_option autoImplicit false

namespace Interpose

namespace Source

/-! ## Names that are bound at calls -/

variable {n : String}

mutual

/-- After a statement the names are possibly bound that were before it, and those that it
assigns. -/
theorem Stmt.mem_boundAfter :
    ∀ (st : Stmt) {bound : Names}, n ∈ st.boundAfter bound → n ∈ bound ∨ n ∈ st.addAssigned []
  | .assign _ m _, bound, h => by
    rw [Stmt.boundAfter, Names.mem_insert] at h
    rw [Stmt.addAssigned, Names.mem_insert]
    exact h.elim (fun h => .inr (.inl h)) .inl
  | .giveBack _ _, bound, h | .expr _ _, bound, h => .inl h
  | .ifThen _ _ onTrue, bound, h => by
    rw [Stmt.boundAfter, Names.mem_union] at h
    refine h.elim .inl fun h => ?_
    split at h
    · exact absurd h List.not_mem_nil
    · exact Stmt.mem_boundAfterAll onTrue h
  | .ifElse _ _ onTrue onFalse, bound, h => by
    rw [Stmt.boundAfter, Names.mem_union] at h
    rw [Stmt.addAssigned, Stmt.mem_addAssignedAll]
    rcases h with h | h
    · split at h
      · exact absurd h List.not_mem_nil
      · exact (Stmt.mem_boundAfterAll onTrue h).imp_right .inr
    · split at h
      · exact absurd h List.not_mem_nil
      · exact (Stmt.mem_boundAfterAll onFalse h).imp_right .inl
  | .whileLoop _ _ body, bound, h => by
    rw [Stmt.boundAfter, Names.mem_union] at h
    exact h

theorem Stmt.mem_boundAfterAll :
    ∀ (body : List Stmt) {bound : Names}, n ∈ Stmt.boundAfterAll bound body →
    n ∈ bound ∨ n ∈ assignedBy body
  | [], bound, h => .inl h
  | st :: rest, bound, h => by
    rw [mem_assignedBy_cons]
    rcases Stmt.mem_boundAfterAll rest h with h | h
    · exact (Stmt.mem_boundAfter st h).imp_right .inl
    · exact .inr (.inr h)

end

mutual

/-- Expressions bind nothing. -/
theorem Expr.bound_callSites {site : CallSite} {bound : Names} :
    ∀ (e : Expr), site ∈ e.callSites bound →
    site.bound = bound
  | .name _, h | .lit _, h => absurd h List.not_mem_nil
  | .call callee args, h => by
    rw [Expr.callSites, List.mem_append, List.mem_append, List.mem_singleton] at h
    rcases h with (h | h) | rfl
    · exact Expr.bound_callSites callee h
    · exact Expr.bound_callSitesAll args h
    · rfl
  | .choose cond onTrue onFalse, h => by
    rw [Expr.callSites, List.mem_append, List.mem_append] at h
    exact h.elim (Expr.bound_callSites cond) fun h =>
      h.elim (Expr.bound_callSites onTrue) (Expr.bound_callSites onFalse)

theorem Expr.bound_callSitesAll {site : CallSite} {bound : Names} : ∀ (es : List Expr),
    site ∈ Expr.callSitesAll bound es → site.bound = bound
  | [], h => absurd h List.not_mem_nil
  | e :: es, h => (List.mem_append.1 h).elim (Expr.bound_callSites e) (Expr.bound_callSitesAll es)

end

mutual

/-- At a call only names are possibly bound that were before the statement, or that it assigns. -/
theorem Stmt.bound_callSites {site : CallSite} (hn : n ∈ site.bound) :
    ∀ (st : Stmt) {bound : Names},
    site ∈ st.callSites bound → n ∈ bound ∨ n ∈ st.addAssigned []
  | .assign _ _ e, bound, h | .giveBack _ e, bound, h
  | .expr _ e, bound, h => .inl (e.bound_callSites h ▸ hn)
  | .ifThen _ cond onTrue, bound, h => by
    rw [Stmt.callSites, List.mem_append] at h
    rcases h with h | h
    · exact .inl (cond.bound_callSites h ▸ hn)
    · exact Stmt.bound_callSitesAll hn onTrue h
  | .ifElse _ cond onTrue onFalse, bound, h => by
    rw [Stmt.callSites, List.mem_append, List.mem_append] at h
    rw [Stmt.addAssigned, Stmt.mem_addAssignedAll]
    rcases h with h | h | h
    · exact .inl (cond.bound_callSites h ▸ hn)
    · exact (Stmt.bound_callSitesAll hn onTrue h).imp_right .inr
    · exact (Stmt.bound_callSitesAll hn onFalse h).imp_right .inl
  | .whileLoop _ cond body, bound, h => by
    rw [Stmt.callSites, List.mem_append] at h
    have hinside : n ∈ Names.union bound (assignedBy body) → n ∈ bound ∨ n ∈ assignedBy body :=
      (Names.mem_union ..).1
    rcases h with h | h
    · exact hinside (cond.bound_callSites h ▸ hn)
    · exact (Stmt.bound_callSitesAll hn body h).elim hinside .inr

theorem Stmt.bound_callSitesAll {site : CallSite} (hn : n ∈ site.bound) :
    ∀ (body : List Stmt) {bound : Names},
    site ∈ Stmt.callSitesAll bound body → n ∈ bound ∨ n ∈ assignedBy body
  | [], bound, h => absurd h List.not_mem_nil
  | st :: rest, bound, h => by
    rw [Stmt.callSitesAll, List.mem_append] at h
    rw [mem_assignedBy_cons]
    rcases h with h | h
    · exact (Stmt.bound_callSites hn st h).imp_right .inl
    · split at h
      · exact absurd h List.not_mem_nil
      · rcases Stmt.bound_callSitesAll hn rest h with h | h
        · exact (Stmt.mem_boundAfter st h).imp_right .inl
        · exact .inr (.inr h)

end

/-- At a call of a function only its parameters and the names that it assigns are possibly bound. -/
theorem Function.bound_callSites {d : Function} {site : CallSite} (h : site ∈ d.callSites)
    (hn : n ∈ site.bound) : n ∈ d.params ∨ n ∈ assignedBy d.body := by
  refine (Stmt.bound_callSitesAll hn d.body h).imp_left fun hn => ?_
  rw [Function.bound, Names.mem_union] at hn
  exact hn.resolve_left List.not_mem_nil

end Source

open Source

/-! ## Operators -/

/-- **Operators call globals.** Take any function of a program text. Its graph has one call for
every call of the function that is not dead, in the same order and with as many arguments. Where the
call is that of an operator it goes to the global of the operator's name, whatever the function
takes as parameters or assigns, with one exception: the sign calls the global `neg` only where the
function has not possibly bound `neg` itself. -/
theorem operators_call_globals {text : String} {ds : List Source.Function}
    (hread : readProgram text = .ok ds) {p : Provenance} (hp : p.definition ∈ ds) :
    ∃ g, lower p = .ok g
      ∧ List.Forall₂
        (fun site call => call.2.length = site.args.length
          ∧ ∀ (k : Level) (s : Symbol) (op : String), k.operator? s = some op →
            site.callee = .name op → (op = "neg" → "neg" ∉ site.bound) → call.1 = .global op)
        p.definition.callSites g.calls := by
  obtain ⟨c, h⟩ := Chart.exists_lowers p.definition p.file
  refine ⟨(c.marked (some p)).graph, ?_, ?_⟩
  · rw [lower, h.yields]
    rfl
  have hcalls : (c.marked (some p)).graph.calls = c.graph.calls := rfl
  rw [hcalls]
  have hall :=
    (List.forall₂_and_left p.definition.callSites c.graph.calls).2 ⟨fun _ hsite => hsite, h.calls⟩
  refine hall.imp ?_
  rintro site call ⟨hsite, hbecomes⟩
  refine ⟨hbecomes.args, fun k s op hop hcallee hneg => hbecomes.callee op hcallee fun hbound => ?_⟩
  by_cases hsign : op = "neg"
  · exact hneg hsign (hsign ▸ hbound)
  · -- no other operator has a name that the function could have bound
    exact Level.not_isWord hop hsign
      (words_readProgram hread _ hp op (Function.bound_callSites hsite hbound))

/-- A function that binds `neg` in one arm of a conditional, and takes a difference behind it. -/
def differing : Source.Function where
  name := "f"
  params := ["a"]
  body := [.ifThen 1 (.operator "<" [.name "a", .lit (.int 0)])
    [.assign 1 "neg" (.operator "neg" [.name "a"])],
    .expr 1 (.operator "-" [.name "a", .lit (.int 1)])]
  line := 1

/-- The sign stands before `neg` is bound, and the difference where it possibly is. Both call
globals. -/
theorem operators_call_globals_differing :
    readProgram "fn f(a) { if a < 0 { neg = -a } a - 1 }" = .ok [differing]
      ∧ differing.callSites.map CallSite.bound = [["a"], ["a"], ["a", "neg"]]
      ∧ ∃ g, lower ⟨⟨13⟩, "f", "a", differing, ⟨[]⟩⟩ = .ok g
        ∧ g.calls.map Prod.fst = [.global "<", .global "neg", .global "-"] := by
  have hread : readProgram "fn f(a) { if a < 0 { neg = -a } a - 1 }" = .ok [differing] := by cbv
  obtain ⟨g, hlower, hcalls⟩ :=
    operators_call_globals hread (p := ⟨⟨13⟩, "f", "a", differing, ⟨[]⟩⟩) List.mem_cons_self
  refine ⟨hread, by cbv, g, hlower, ?_⟩
  have hsites : differing.callSites = [⟨.name "<", [.name "a", .lit (.int 0)], ["a"]⟩,
      ⟨.name "neg", [.name "a"], ["a"]⟩,
      ⟨.name "-", [.name "a", .lit (.int 1)], ["a", "neg"]⟩] := by cbv
  rw [hsites] at hcalls
  obtain ⟨less, rest, ⟨-, hless⟩, hcalls, hg⟩ := List.forall₂_cons_left_iff.1 hcalls
  obtain ⟨sign, rest', ⟨-, hsign⟩, hcalls, hrest⟩ := List.forall₂_cons_left_iff.1 hcalls
  obtain ⟨minus, rest'', ⟨-, hminus⟩, hcalls, hrest'⟩ := List.forall₂_cons_left_iff.1 hcalls
  have hnil := List.forall₂_nil_left_iff.1 hcalls
  rw [hg, hrest, hrest', hnil, List.map_cons, List.map_cons, List.map_cons,
    hless .comparison .lt "<" rfl rfl (by decide), hsign .unary .minus "neg" rfl rfl (by decide),
    hminus .sum .minus "-" rfl rfl (by decide)]
  rfl

/-- A function with a parameter `neg` that takes the negative of a number. -/
def signing : Source.Function where
  name := "f"
  params := ["neg"]
  body := [.giveBack 1 (.operator "neg" [.lit (.int 1)])]
  line := 1

/-- The sign in it calls the parameter, and not the global `neg`. -/
theorem sign_calls_parameter :
    readProgram "fn f(neg) { return -1 }" = .ok [signing]
      ∧ signing.callSites = [⟨.name "neg", [.lit (.int 1)], ["neg"]⟩]
      ∧ ∃ g, lower ⟨⟨14⟩, "f", "a", signing, ⟨[]⟩⟩ = .ok g ∧ g.arguments = [⟨0⟩, ⟨1⟩]
        ∧ g.calls = [(.var ⟨1⟩, [.const (.int 1)])] := by
  refine ⟨by cbv, by cbv, ⟨#[.param .entry 0, .param .entry 1, .statement .entry 0],
    #[⟨[(⟨0⟩, .any), (⟨1⟩, .any)], [(⟨2⟩, ⟨.call (.var ⟨1⟩) [.const (.int 1)], .any, 1⟩)],
      [.leave (.var ⟨2⟩)]⟩],
    [⟨"a", 1⟩], some ⟨⟨14⟩, "f", "a", signing, ⟨[]⟩⟩⟩, by cbv, by cbv, by cbv⟩

end Interpose
