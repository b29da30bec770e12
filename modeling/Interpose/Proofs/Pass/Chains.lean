import Mathlib.Data.List.Perm.Subperm
import Mathlib.Logic.Relation
import Interpose.EditPass

/-!
# Chains of redirects

A variable may be redirected to another that is redirected itself. What a use of it becomes is the
end of that chain. A pass follows a chain for a bounded number of hops, one more than there are
redirects. A chain that does not come back to itself ends within these, because its variables are
all different and all redirected. A chain that does come back never ends, and what is reached on it
after that many hops depends on how many redirects there are altogether.
-/

set_option autoImplicit false

namespace Interpose

namespace EditPass

variable {next : Variable → Option Operand} {op e e' : Operand}

/-- The redirects lead from an operand to `e`, which is not redirected itself. -/
inductive EndsAt (next : Variable → Option Operand) : Operand → Operand → Prop
  | stop {op : Operand} : (∀ v, op.var? = some v → next v = none) → EndsAt next op op
  | hop {v : Variable} {op e : Operand} :
    next v = some op → EndsAt next op e → EndsAt next (.var v) e

/-- One variable is redirected to another. -/
def Hops (next : Variable → Option Operand) (v w : Variable) : Prop := next v = some (.var w)

/-- No chain comes back to itself. -/
def Acyclic (next : Variable → Option Operand) : Prop := ∀ v, ¬Relation.TransGen (Hops next) v v

/-- A chain has one end. -/
theorem EndsAt.unique (h : EndsAt next op e) (h' : EndsAt next op e') : e = e' := by
  induction h with
  | stop hstop =>
    cases h' with
    | stop => rfl
    | hop hnext _ =>
      rw [hstop _ rfl] at hnext
      cases hnext
  | hop hnext _ ih =>
    cases h' with
    | stop hstop =>
      rw [hstop _ rfl] at hnext
      cases hnext
    | hop hnext' h' =>
      obtain rfl := Option.some.inj (hnext.symm.trans hnext')
      exact ih h'

/-- The end of a chain is not redirected. -/
theorem EndsAt.next_eq_none (h : EndsAt next op e) : ∀ v, e.var? = some v → next v = none := by
  induction h with
  | stop hstop => exact hstop
  | hop _ _ ih => exact ih

/-- What is held for a key is held under one of the keys. -/
theorem mem_keys_of_get? {t : Table Variable Operand} {v : Variable} (h : t.get? v = some op) :
    v ∈ t.keys := by
  obtain ⟨entries⟩ := t
  replace h : Table.find v entries = some op := h
  show v ∈ entries.map Prod.fst
  induction entries with
  | nil => cases h
  | cons entry rest ih =>
    rw [Table.find] at h
    split at h
    · next heq => exact heq ▸ List.mem_cons_self
    · exact List.mem_cons_of_mem _ (ih h)

/-! ## Cycles -/

/-- The variable is redirected to itself in the end. -/
def OnCycle (next : Variable → Option Operand) (v : Variable) : Prop :=
  Relation.TransGen (Hops next) v v

/-- The redirects lead from one variable to the other, in any number of hops. -/
def Leads (next : Variable → Option Operand) (v w : Variable) : Prop :=
  Relation.ReflTransGen (Hops next) v w

/-- A cycle is never left. -/
theorem OnCycle.hop {v w : Variable} (h : OnCycle next v) (hvw : Hops next v w) :
    OnCycle next w := by
  obtain ⟨u, hvu, hback⟩ := Relation.TransGen.head'_iff.1 h
  have hsame : u = w := Operand.var.inj (Option.some.inj (hvu.symm.trans hvw))
  rw [hsame] at hback
  exact Relation.TransGen.tail' hback hvw

/-- However far a chain is followed on a cycle, it comes to a variable of the cycle. -/
theorem follow_onCycle {t : Table Variable Operand} (hops : Nat) {v : Variable}
    (h : OnCycle t.get? v) :
    ∃ w, follow t hops (.var v) = .var w ∧ Leads t.get? v w ∧ OnCycle t.get? w := by
  induction hops generalizing v with
  | zero => exact ⟨v, rfl, .refl, h⟩
  | succ hops ih =>
    obtain ⟨u, hvu, -⟩ := Relation.TransGen.head'_iff.1 h
    obtain ⟨w, hfollow, hlead, hcycle⟩ := ih (h.hop hvu)
    have hnext : t.get? v = some (.var u) := hvu
    refine ⟨w, ?_, Relation.ReflTransGen.head hvu hlead, hcycle⟩
    rw [follow]
    simp only [hnext]
    exact hfollow

/-! ## Following a chain -/

/-- Following a chain reaches its end or a cycle. `path` are the variables that were passed: they
are different and all redirected, and so there are hops left until one of them comes up again. -/
theorem follow_cases {t : Table Variable Operand} (path : List Variable) (op : Operand)
    (hnodup : path.Nodup) (hkeys : path ⊆ t.keys)
    (hpath : ∀ w ∈ path, ∀ v, op.var? = some v → Relation.TransGen (Hops t.get?) w v)
    (hops : Nat) (hcount : hops + path.length = t.size + 1) :
    EndsAt t.get? op (follow t hops op)
      ∨ ∃ v w, op = .var v ∧ follow t hops op = .var w ∧ Leads t.get? v w ∧ OnCycle t.get? w := by
  have hle : ∀ l : List Variable, l.Nodup → l ⊆ t.keys → l.length ≤ t.size := fun l hl hsub => by
    have hlength := (List.subperm_of_subset hl hsub).length_le
    rwa [Table.keys, List.length_map] at hlength
  induction hops generalizing path op with
  | zero =>
    have := hle path hnodup hkeys
    omega
  | succ hops ih =>
    cases op with
    | const c => exact .inl (.stop nofun)
    | global name => exact .inl (.stop nofun)
    | var v =>
      by_cases hseen : v ∈ path
      · -- the chain has come back to a variable that it has passed
        obtain ⟨w, hfollow, hlead, hcycle⟩ := follow_onCycle (hops + 1) (hpath v hseen v rfl)
        exact .inr ⟨v, w, rfl, hfollow, hlead, hcycle⟩
      rw [follow]
      rcases hnext : t.get? v with _ | target
      · exact .inl (.stop fun w hw => Option.some.inj hw ▸ hnext)
      have hhop : ∀ w, target.var? = some w → Hops t.get? v w := by
        intro w hw
        cases target <;> simp_all [Operand.var?, Hops]
      have hkeys' : v :: path ⊆ t.keys := List.cons_subset.2 ⟨mem_keys_of_get? hnext, hkeys⟩
      have hpath' : ∀ w ∈ v :: path, ∀ u, target.var? = some u →
          Relation.TransGen (Hops t.get?) w u := by
        intro w hw u hu
        rcases List.mem_cons.1 hw with rfl | hw
        · exact .single (hhop u hu)
        · exact (hpath w hw v rfl).tail (hhop u hu)
      have hcount' : hops + (v :: path).length = t.size + 1 := by
        rw [List.length_cons]
        omega
      rcases ih (v :: path) target (List.nodup_cons.2 ⟨hseen, hnodup⟩) hkeys' hpath' hcount' with
        hend | ⟨u, w, rfl, hfollow, hlead, hcycle⟩
      · exact .inl (.hop hnext hend)
      · exact .inr ⟨v, w, rfl, hfollow, Relation.ReflTransGen.head hnext hlead, hcycle⟩

/-- **An operand becomes the end of its chain**, unless the chain runs into a cycle; then it becomes
a variable of the cycle. -/
theorem redirect_cases (t : Table Variable Operand) (op : Operand) :
    EndsAt t.get? op (redirect t op)
    ∨ ∃ v w, op = .var v ∧ redirect t op = .var w ∧ Leads t.get? v w ∧ OnCycle t.get? w :=
  follow_cases [] op .nil (List.nil_subset _) nofun (t.size + 1) rfl

/-- If no chain comes back to itself, every operand becomes the end of its chain. -/
theorem redirect_endsAt {t : Table Variable Operand} (h : Acyclic t.get?) (op : Operand) :
    EndsAt t.get? op (redirect t op) :=
  (redirect_cases t op).resolve_right fun ⟨_, w, _, _, _, hcycle⟩ => h w hcycle

/-- Only what stands on the chain of a variable decides where the chain ends. -/
theorem EndsAt.congr {next' : Variable → Option Operand} (h : EndsAt next op e)
    (hsame : ∀ v, op.var? = some v → ∀ w, Leads next v w → next' w = next w) :
    EndsAt next' op e := by
  induction h with
  | stop hstop =>
    refine .stop fun v hv => ?_
    rw [hsame v hv v .refl, hstop v hv]
  | @hop v target e hnext _ ih =>
    refine .hop ((hsame v rfl v .refl).trans hnext) (ih fun u hu w hlead => ?_)
    have hhop : Hops next v u := by
      cases target <;> simp_all [Operand.var?, Hops]
    exact hsame v rfl w (Relation.ReflTransGen.head hhop hlead)

end EditPass

end Interpose
