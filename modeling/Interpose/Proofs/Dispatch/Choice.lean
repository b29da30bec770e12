import Mathlib.Data.List.Induction
import Interpose.Dispatch.Select
import Interpose.Proofs.Dispatch.Specific

/-!
# Which rule is chosen

The choice goes through the rules once and holds one of them at a time. A rule that it passes over
is not compared with any that come later; that nothing is lost rests on the comparison being a
strict order. The rule that is held only becomes more specific, and whatever would be more specific
than the new one was more specific than the old.
-/

set_option autoImplicit false

namespace Interpose

variable {α : Type} {rules : List (Rule α)} {sig : Signature} {r held : Rule α}

namespace Rule

/-- The first rule is more specific for calls of the signature. -/
def MoreSpecific (r : Rule α) (sig : Signature) (r' : Rule α) : Prop :=
  r.pattern.moreSpecific r'.pattern sig.size = true

instance (r r' : Rule α) : Decidable (r.MoreSpecific sig r') :=
  inferInstanceAs (Decidable (_ = true))

/-- The rule takes the place of the one that is held, if there is one. -/
def Displaces (r : Rule α) (sig : Signature) (held : Option (Rule α)) : Prop :=
  r.pattern.accepts sig = true ∧ ∀ h, held = some h → r.MoreSpecific sig h

/-- The rule accepts the signature, and no rule of the table that does is more specific. -/
def Undominated (r : Rule α) (rules : List (Rule α)) (sig : Signature) : Prop :=
  r.pattern.accepts sig = true ∧ ∀ r' ∈ rules, r'.pattern.accepts sig = true →
    ¬ r'.MoreSpecific sig r

instance : Decidable (r.Undominated rules sig) := inferInstanceAs (Decidable (_ ∧ _))

/-- Rules that accept a signature fit its size. -/
theorem fits (h : r.pattern.accepts sig = true) : r.pattern.Fits sig.size := ⟨sig, rfl, h⟩

theorem not_moreSpecific_self (h : r.pattern.accepts sig = true) : ¬ r.MoreSpecific sig r :=
  fun hself => SigPattern.not_narrower_self _ _
    ((SigPattern.moreSpecific_iff (fits h) (fits h)).1 hself)

theorem MoreSpecific.trans {r₁ r₂ r₃ : Rule α} (h₁ : r₁.pattern.accepts sig = true)
    (h₂ : r₂.pattern.accepts sig = true) (h₃ : r₃.pattern.accepts sig = true)
    (h : r₁.MoreSpecific sig r₂) (h' : r₂.MoreSpecific sig r₃) : r₁.MoreSpecific sig r₃ := by
  have hnarrower := (SigPattern.moreSpecific_iff (fits h₁) (fits h₂)).1 h
  have hnarrower' := (SigPattern.moreSpecific_iff (fits h₂) (fits h₃)).1 h'
  exact (SigPattern.moreSpecific_iff (fits h₁) (fits h₃)).2 (hnarrower.trans hnarrower')

end Rule

open Rule

/-! ## The rule that is held -/

@[simp] theorem select_nil : select ([] : List (Rule α)) sig = none := rfl

theorem select_concat : select (rules ++ [r]) sig
    = if r.pattern.accepts sig then Rule.prefer sig.size (select rules sig) r
      else select rules sig := by
  rw [select, List.filter_append, List.foldl_append]
  by_cases h : r.pattern.accepts sig = true
  · simp [h, select]
  · simp [h, select]

/-- **One step of the choice**: a rule that displaces the one before it is held from then on. -/
theorem select_concat_of_displaces (h : r.Displaces sig (select rules sig)) :
    select (rules ++ [r]) sig = some r := by
  rw [select_concat, if_pos h.1]
  rcases hheld : select rules sig with _ | b
  · rfl
  · exact if_pos (h.2 b hheld)

/-- The other step: what is held stays. -/
theorem select_concat_of_not_displaces (h : ¬ r.Displaces sig (select rules sig)) :
    select (rules ++ [r]) sig = select rules sig := by
  rw [select_concat]
  split
  · next haccepts =>
    rcases hheld : select rules sig with _ | b
    · exact absurd ⟨haccepts, fun b hb => by simp [hheld] at hb⟩ h
    · refine if_neg fun hless => h ⟨haccepts, fun b' hb' => ?_⟩
      exact Option.some.inj (hheld.symm.trans hb') ▸ hless
  · rfl

/-- The rule that is held is one of the table, and accepts the signature. -/
theorem select_mem (h : select rules sig = some held) :
    held ∈ rules ∧ held.pattern.accepts sig = true := by
  induction rules using List.reverseRecOn with
  | nil => cases h
  | append_singleton rules r ih =>
    by_cases hr : r.Displaces sig (select rules sig)
    · rw [select_concat_of_displaces hr] at h
      obtain rfl := Option.some.inj h
      exact ⟨by simp, hr.1⟩
    · rw [select_concat_of_not_displaces hr] at h
      exact ⟨List.mem_append_left _ (ih h).1, (ih h).2⟩

/-- Nothing is held exactly as long as no rule has accepted. -/
theorem select_eq_none_iff :
    select rules sig = none ↔ ∀ r ∈ rules, r.pattern.accepts sig = false := by
  induction rules using List.reverseRecOn with
  | nil => simp
  | append_singleton rules r ih =>
    by_cases hr : r.Displaces sig (select rules sig)
    · rw [select_concat_of_displaces hr]
      exact ⟨nofun, fun h => absurd hr.1 (by simp [h r (by simp)])⟩
    · rw [select_concat_of_not_displaces hr, ih]
      refine ⟨fun h r' hr' => ?_, fun h r' hr' => h r' (List.mem_append_left _ hr')⟩
      rcases List.mem_append.1 hr' with hr' | hr'
      · exact h r' hr'
      -- with nothing held, a rule that does not take the place does not accept
      · obtain rfl := List.mem_singleton.1 hr'
        rw [ih.2 h] at hr
        by_contra haccepts
        exact hr ⟨by simpa using haccepts, nofun⟩

/-- **No rule that was met is more specific than the one held.** When that gives way, whatever is
more specific than the next was more specific than it already. -/
theorem undominated_of_select (h : select rules sig = some held) : held.Undominated rules sig := by
  refine ⟨(select_mem h).2, ?_⟩
  induction rules using List.reverseRecOn generalizing held with
  | nil => simp
  | append_singleton rules r ih =>
    intro r' hr' haccepts hless
    by_cases hr : r.Displaces sig (select rules sig)
    · rw [select_concat_of_displaces hr] at h
      obtain rfl := Option.some.inj h
      rcases List.mem_append.1 hr' with hr' | hr'
      · rcases hheld : select rules sig with _ | b
        · simp [select_eq_none_iff.1 hheld r' hr'] at haccepts
        · exact ih hheld r' hr' haccepts
            (hless.trans haccepts hr.1 (select_mem hheld).2 (hr.2 b hheld))
      · obtain rfl := List.mem_singleton.1 hr'
        exact not_moreSpecific_self haccepts hless
    · rw [select_concat_of_not_displaces hr] at h
      rcases List.mem_append.1 hr' with hr' | hr'
      · exact ih h r' hr' haccepts hless
      · obtain rfl := List.mem_singleton.1 hr'
        exact hr ⟨haccepts, fun b hb => Option.some.inj (h.symm.trans hb) ▸ hless⟩

/-! ## The choice -/

/-- **The choice falls on a rule that none is more specific than, in whatever order the rules
stand.**

To be more specific at a size is to accept no more of its signatures, and either fewer or, alone of
the two, no further positions; it is a strict order. The choice fails only if no rule accepts the
signature. A rule that is more specific than every other one that accepts it is chosen from any
arrangement of the table. -/
theorem chosen_is_undominated :
    (∀ (n : Nat) (p q : SigPattern), p.Fits n → q.Fits n →
      (p.moreSpecific q n = true ↔ p.Narrower q n))
    ∧ (∀ n : Nat, IsStrictOrder {p : SigPattern // p.Fits n}
      fun p q => p.1.moreSpecific q.1 n = true)
    ∧ ∀ (α : Type) (rules : List (Rule α)) (sig : Signature),
      (select rules sig = none ↔ ∀ r ∈ rules, r.pattern.accepts sig = false)
      ∧ (∀ r, select rules sig = some r → r ∈ rules ∧ r.Undominated rules sig)
      ∧ ∀ r others, rules.Perm (r :: others) → r.pattern.accepts sig = true →
          (∀ r' ∈ others, r'.pattern.accepts sig = true → r.MoreSpecific sig r') →
          select rules sig = some r := by
  refine ⟨fun n p q hp hq => SigPattern.moreSpecific_iff hp hq,
    SigPattern.isStrictOrder_moreSpecific, fun α rules sig =>
      ⟨select_eq_none_iff, fun r h => ⟨(select_mem h).1, undominated_of_select h⟩, ?_⟩⟩
  intro r others hperm haccepts hall
  have hr : r ∈ rules := hperm.mem_iff.2 List.mem_cons_self
  rcases hheld : select rules sig with _ | held
  · simp [select_eq_none_iff.1 hheld r hr] at haccepts
  · rcases List.mem_cons.1 (hperm.mem_iff.1 (select_mem hheld).1) with rfl | hother
    · rfl
    -- a rule other than `r` cannot be the chosen one, because `r` is more specific
    · exact absurd (hall held hother (select_mem hheld).2)
        ((undominated_of_select hheld).2 r hr haccepts)

/-- A rule for the calls of one function is chosen before a rule for all calls that was registered
earlier. -/
theorem chosen_is_undominated_callee :
    let sig : Signature := ⟨[.func ⟨2⟩, .int, .int]⟩
    let generic : Rule Nat := ⟨.any, 1⟩
    let specific : Rule Nat := ⟨.ofCallee (.func ⟨2⟩), 2⟩
    specific.pattern.Fits 3 ∧ generic.pattern.Fits 3 ∧ specific.pattern.Narrower generic.pattern 3
      ∧ select [generic, specific] sig = some specific := by
  intro sig generic specific
  have hspecific : specific.pattern.Fits 3 := ⟨sig, rfl, by decide⟩
  have hgeneric : generic.pattern.Fits 3 := ⟨sig, rfl, by decide⟩
  refine ⟨hspecific, hgeneric, (chosen_is_undominated.1 3 _ _ hspecific hgeneric).1 (by decide), ?_⟩
  exact (chosen_is_undominated.2.2 Nat [generic, specific] sig).2.2 specific [generic]
    (List.Perm.swap ..) (by decide) (by decide)

end Interpose
