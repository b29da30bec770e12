import Mathlib.Order.Defs.Unbundled
import Mathlib.Tactic.ByContra
import Interpose.Dispatch.Pattern

/-!
# What it means to be more specific

Patterns are compared by their text: position by position, and by whether the last part stands for
any number of positions. Here the comparison is said by what the patterns accept. It comes down to
two facts. Every pattern of a position accepts some type, and refinement of two of them is
inclusion; so a pattern whose fixed positions fit a size accepts some signature of that size, and
inclusion of what two such patterns accept can be seen at single positions.

The comparison of two patterns that no signature of the size satisfies is of no use to anyone, and
is not spoken of.
-/

set_option autoImplicit false

namespace Interpose

/-! ## One position -/

namespace Pattern

/-- A type that the pattern accepts. -/
def sample : Pattern → Ty
  | .any => .nothing
  | .number => .int
  | .callable => .func ⟨0⟩
  | .exact t => t

@[simp] theorem accepts_sample (p : Pattern) : p.accepts p.sample = true := by
  cases p <;> simp [accepts, sample, Ty.isNumber, Ty.isCallable]

/-- **Refinement is inclusion.** A pattern that does not refine another accepts one of four types
that tell them apart: no number, a number that is not the other's, and a function and a hook in the
same way. -/
theorem refines_iff {p q : Pattern} :
    p.refines q = true ↔ ∀ t, p.accepts t = true → q.accepts t = true := by
  refine ⟨fun h t => accepts_of_refines h, fun h => ?_⟩
  have hnothing := h .nothing
  have hint := h .int
  have hfloat := h .float
  have hfunc := h (.func ⟨0⟩)
  have hhook := h (.hook ⟨0⟩)
  have hsample := h p.sample p.accepts_sample
  cases p <;> cases q <;>
    simp_all [refines, accepts, sample, Ty.isNumber, Ty.isCallable]

end Pattern

/-- Collecting what is there at every position succeeds. -/
theorem mapM_eq_some {α β : Type} {f : α → Option β} {g : α → β} {l : List α}
    (h : ∀ a ∈ l, f a = some (g a)) : l.mapM f = some (l.map g) := by
  induction l with
  | nil => rfl
  | cons a l ih =>
    rw [List.mapM_cons, h a List.mem_cons_self, ih fun b hb => h b (List.mem_cons_of_mem a hb)]
    rfl

namespace SigPattern

variable {p q r : SigPattern} {n i : Nat} {sig : Signature}

/-! ## Whole signatures -/

/-- Some signature of the size is accepted. -/
def Fits (p : SigPattern) (n : Nat) : Prop := ∃ sig : Signature, sig.size = n ∧ p.accepts sig = true

/-- Whatever the first accepts of a size, the second does too. -/
def Within (p q : SigPattern) (n : Nat) : Prop :=
  ∀ sig : Signature, sig.size = n → p.accepts sig = true → q.accepts sig = true

/-- The first accepts no more than the second, and either less, or only the second has a part for
any number of positions. -/
def Narrower (p q : SigPattern) (n : Nat) : Prop :=
  p.Within q n ∧ ((∃ sig : Signature, sig.size = n ∧ q.accepts sig = true ∧ p.accepts sig = false)
    ∨ p.rest = none ∧ q.rest.isSome = true)

/-- Where a size is accepted, every position has a pattern. -/
theorem exists_at? (h : p.acceptsSize n = true) (hi : i < n) : ∃ a, p.at? i = some a := by
  obtain ⟨fixed, rest⟩ := p
  cases rest with
  | none =>
    have hn : n = fixed.length := by simpa [acceptsSize] using h
    exact ⟨fixed.get ⟨i, hn ▸ hi⟩, by simp [at?, hn ▸ hi]⟩
  | some a =>
    cases hget : fixed[i]? with
    | none => exact ⟨a, by simp [at?, hget]⟩
    | some b => exact ⟨b, by simp [at?, hget]⟩

/-- A signature is accepted if its size is and every type at its position. -/
theorem accepts_iff : p.accepts sig = true ↔ p.acceptsSize sig.size = true
    ∧ ∀ i t, sig.types[i]? = some t → ∃ a, p.at? i = some a ∧ a.accepts t = true := by
  have hposition : ∀ (t : Ty) (i : Nat), ((p.at? i).map (·.accepts t)).getD false = true
      ↔ ∃ a, p.at? i = some a ∧ a.accepts t = true := by
    intro t i
    cases p.at? i <;> simp
  rw [accepts, Bool.and_eq_true, List.all_eq_true]
  refine and_congr_right fun _ => ⟨fun h i t ht => ?_, fun h x hx => ?_⟩
  · exact (hposition t i).1 (h (t, i) (List.mem_zipIdx_iff_getElem?.2 ht))
  · exact (hposition x.1 x.2).2 (h x.2 x.1 (List.mem_zipIdx_iff_getElem?.1 hx))

/-- A signature of the size with a sample at each position. -/
def sample (p : SigPattern) (n : Nat) : Signature :=
  ⟨(List.range n).map fun i => ((p.at? i).getD .any).sample⟩

@[simp] theorem size_sample : (p.sample n).size = n := by simp [sample, Signature.size]

theorem types_sample (hi : i < n) : (p.sample n).types[i]? = some ((p.at? i).getD .any).sample := by
  simp [sample, List.getElem?_range hi]

/-- The sample with another type at one position. -/
def sampleWith (p : SigPattern) (n i : Nat) (t : Ty) : Signature := ⟨(p.sample n).types.set i t⟩

@[simp] theorem size_sampleWith {t : Ty} : (p.sampleWith n i t).size = n :=
  (List.length_set ..).trans size_sample

theorem types_sampleWith {t : Ty} (hi : i < n) : (p.sampleWith n i t).types[i]? = some t := by
  have hlt : i < (p.sample n).types.length := by simpa [sample] using hi
  simp [sampleWith, hlt]

theorem accepts_sampleWith (h : p.acceptsSize n = true) {a : Pattern}
    (ha : p.at? i = some a) {t : Ty} (ht : a.accepts t = true) :
    p.accepts (p.sampleWith n i t) = true := by
  refine accepts_iff.2 ⟨by simpa using h, fun j u hu => ?_⟩
  have hj : j < n := by
    have hlt := (List.getElem?_eq_some_iff.1 hu).1
    have hsize : (p.sampleWith n i t).types.length = n := size_sampleWith
    omega
  rw [sampleWith, List.getElem?_set] at hu
  by_cases hij : i = j
  · subst hij
    rw [if_pos rfl] at hu
    have hut : u = t := by split at hu <;> simp_all
    exact ⟨a, ha, hut ▸ ht⟩
  · rw [if_neg hij, types_sample hj] at hu
    obtain ⟨b, hb⟩ := exists_at? h hj
    rw [hb] at hu
    exact ⟨b, hb, Option.some.inj hu ▸ b.accepts_sample⟩

theorem accepts_sample (h : p.acceptsSize n = true) : p.accepts (p.sample n) = true := by
  refine accepts_iff.2 ⟨by simpa using h, fun j u hu => ?_⟩
  have hj : j < n := by
    have hlt := (List.getElem?_eq_some_iff.1 hu).1
    have hsize : (p.sample n).types.length = n := size_sample
    omega
  obtain ⟨b, hb⟩ := exists_at? h hj
  rw [types_sample hj, hb] at hu
  exact ⟨b, hb, Option.some.inj hu ▸ b.accepts_sample⟩

/-- A pattern fits exactly the sizes that it accepts, since no position is in the way. -/
theorem fits_iff : p.Fits n ↔ p.acceptsSize n = true := by
  constructor
  · rintro ⟨sig, rfl, h⟩
    exact (accepts_iff.1 h).1
  · exact fun h => ⟨p.sample n, size_sample, accepts_sample h⟩

/-- **Inclusion is seen at single positions.** -/
theorem within_iff (hp : p.Fits n) (hq : q.Fits n) : p.Within q n
    ↔ ∀ i < n, ∀ a b, p.at? i = some a → q.at? i = some b → a.refines b = true := by
  rw [fits_iff] at hp hq
  constructor
  · intro h i hi a b ha hb
    refine Pattern.refines_iff.2 fun t ht => ?_
    have haccepts := h _ size_sampleWith (accepts_sampleWith hp ha ht)
    obtain ⟨b', hb', ht'⟩ := (accepts_iff.1 haccepts).2 i t (types_sampleWith hi)
    rw [hb] at hb'
    exact Option.some.inj hb' ▸ ht'
  · rintro h sig rfl haccepts
    refine accepts_iff.2 ⟨hq, fun i t ht => ?_⟩
    obtain ⟨a, ha, hat⟩ := (accepts_iff.1 haccepts).2 i t ht
    have hi : i < sig.size := (List.getElem?_eq_some_iff.1 ht).1
    obtain ⟨b, hb⟩ := exists_at? hq hi
    exact ⟨b, hb, Pattern.accepts_of_refines (h i hi a b ha hb) hat⟩

/-! ## The comparison -/

/-- The comparison, position by position, where every position has a pattern in both. -/
theorem moreSpecific_iff_positions (hp : p.Fits n) (hq : q.Fits n) : p.moreSpecific q n = true
    ↔ (∀ i < n, ∀ a b, p.at? i = some a → q.at? i = some b → a.refines b = true)
      ∧ ((∃ i < n, ∃ a b, p.at? i = some a ∧ q.at? i = some b ∧ a.refines b = true
        ∧ b.refines a = false)
        ∨ p.rest = none ∧ q.rest.isSome = true) := by
  rw [fits_iff] at hp hq
  have hpairs : (List.range n).mapM (fun i => do return (← p.at? i, ← q.at? i))
      = some ((List.range n).map fun i => ((p.at? i).getD .any, (q.at? i).getD .any)) := by
    refine mapM_eq_some fun i hi => ?_
    obtain ⟨a, ha⟩ := exists_at? hp (List.mem_range.1 hi)
    obtain ⟨b, hb⟩ := exists_at? hq (List.mem_range.1 hi)
    rw [ha, hb]
    rfl
  rw [moreSpecific, hpairs]
  simp only [List.all_map, List.any_map, Bool.and_eq_true, Bool.or_eq_true, List.all_eq_true,
    List.any_eq_true, List.mem_range, Function.comp_apply, Option.isNone_iff_eq_none,
    Bool.not_eq_true']
  -- at each position the two patterns are the ones that stand there
  refine and_congr (forall₂_congr fun i hi => ?_)
    (or_congr (exists_congr fun i => and_congr_right fun hi => ?_) Iff.rfl)
  all_goals
    obtain ⟨a, ha⟩ := exists_at? hp hi
    obtain ⟨b, hb⟩ := exists_at? hq hi
    simp [ha, hb]

/-- **To be more specific is to be narrower.** -/
theorem moreSpecific_iff (hp : p.Fits n) (hq : q.Fits n) :
    p.moreSpecific q n = true ↔ p.Narrower q n := by
  rw [moreSpecific_iff_positions hp hq, ← within_iff hp hq, Narrower]
  refine and_congr_right fun hwithin => or_congr ?_ Iff.rfl
  -- the second accepts more if inclusion fails in the other direction
  have hother : (∃ sig : Signature, sig.size = n ∧ q.accepts sig = true ∧ p.accepts sig = false)
      ↔ ¬ q.Within p n := by
    simp [Within]
  rw [hother, within_iff hq hp]
  constructor
  · rintro ⟨i, hi, a, b, ha, hb, -, hba⟩ h
    exact absurd (h i hi b a hb ha) (by simp [hba])
  · intro h
    by_contra hnone
    refine h fun i hi b a hb ha => ?_
    by_contra hba
    exact hnone ⟨i, hi, a, b, ha, hb, (within_iff hp hq).1 hwithin i hi a b ha hb,
      Bool.eq_false_iff.2 hba⟩

/-! ## A strict order -/

theorem Within.trans (h : p.Within q n) (h' : q.Within r n) : p.Within r n :=
  fun sig hsize haccepts => h' sig hsize (h sig hsize haccepts)

theorem not_narrower_self (p : SigPattern) (n : Nat) : ¬ p.Narrower p n := by
  rintro ⟨-, ⟨sig, -, haccepts, hnot⟩ | ⟨hnone, hsome⟩⟩
  · rw [haccepts] at hnot
    cases hnot
  · rw [hnone] at hsome
    cases hsome

theorem Narrower.trans (h : p.Narrower q n) (h' : q.Narrower r n) : p.Narrower r n := by
  obtain ⟨hwithin, hless⟩ := h
  obtain ⟨hwithin', hless'⟩ := h'
  refine ⟨hwithin.trans hwithin', ?_⟩
  rcases hless with ⟨sig, hsize, haccepts, hnot⟩ | ⟨hnone, hsome⟩
  · exact .inl ⟨sig, hsize, hwithin' sig hsize haccepts, hnot⟩
  · rcases hless' with ⟨sig, hsize, haccepts, hnot⟩ | ⟨hnone', -⟩
    · refine .inl ⟨sig, hsize, haccepts, Bool.eq_false_iff.2 fun hp => ?_⟩
      rw [hwithin sig hsize hp] at hnot
      cases hnot
    -- the middle one cannot have such a part and have none
    · rw [hnone'] at hsome
      cases hsome

/-- Among the patterns that fit a size the comparison is a strict order. -/
theorem isStrictOrder_moreSpecific (n : Nat) :
    IsStrictOrder {p : SigPattern // p.Fits n} fun p q => p.1.moreSpecific q.1 n = true where
  irrefl p h := not_narrower_self p.1 n ((moreSpecific_iff p.2 p.2).1 h)
  trans p q r h h' :=
    (moreSpecific_iff p.2 r.2).2
      (((moreSpecific_iff p.2 q.2).1 h).trans ((moreSpecific_iff q.2 r.2).1 h'))

end SigPattern

end Interpose
