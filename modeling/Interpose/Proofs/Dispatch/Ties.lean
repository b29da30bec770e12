import Interpose.Proofs.Dispatch.Choice

/-!
# Ties between rules

Of two rules of which neither is more specific the choice keeps the earlier, when it compares them.
It compares a rule only with the one that is held when its turn comes, though. A rule that no other
is more specific than is passed over if a third one is held then and is not less specific; and the
third may yet give way to a later rule, which the one passed over was never compared with.

Rules are told apart by their places in the table here, since two of them can be equal.
-/

set_option autoImplicit false

namespace Interpose

open Rule

variable {α : Type} {rules : List (Rule α)} {sig : Signature} {r : Rule α} {i j : Nat}

/-- The patterns of the table, each with its place as what is to be done. -/
def places (rules : List (Rule α)) : List (Rule Nat) := rules.mapIdx fun i r => ⟨r.pattern, i⟩

/-- The place of the rule that is chosen. -/
def choice? (rules : List (Rule α)) (sig : Signature) : Option Nat :=
  (select (places rules) sig).map Rule.handler

/-! ## Following the place -/

theorem places_concat : places (rules ++ [r]) = places rules ++ [⟨r.pattern, rules.length⟩] := by
  simp [places, List.mapIdx_append]

/-- What is to be done with the calls has no part in the choice. -/
theorem displaces_congr {β : Type} {r : Rule α} {r' : Rule β} {held : Option (Rule α)}
    {held' : Option (Rule β)} (h : r.pattern = r'.pattern)
    (hheld : held.map Rule.pattern = held'.map Rule.pattern) :
    r.Displaces sig held ↔ r'.Displaces sig held' := by
  rcases held with _ | b <;> rcases held' with _ | b' <;> simp_all [Displaces, MoreSpecific]

/-- The choice goes the same way with places. -/
theorem select_places :
    (select rules sig).map Rule.pattern = (select (places rules) sig).map Rule.pattern := by
  induction rules using List.reverseRecOn with
  | nil => rfl
  | append_singleton rules r ih =>
    let placed : Rule Nat := ⟨r.pattern, rules.length⟩
    have hsame : r.Displaces sig (select rules sig)
        ↔ placed.Displaces sig (select (places rules) sig) :=
      displaces_congr rfl ih
    rw [places_concat]
    by_cases hr : r.Displaces sig (select rules sig)
    · rw [select_concat_of_displaces hr, select_concat_of_displaces (hsame.1 hr)]
      rfl
    · rw [select_concat_of_not_displaces hr, select_concat_of_not_displaces fun h =>
        hr (hsame.2 h), ih]

theorem displaces_places_iff : r.Displaces sig (select rules sig)
    ↔ Displaces ⟨r.pattern, rules.length⟩ sig (select (places rules) sig) :=
  displaces_congr rfl select_places

theorem choice?_concat_of_displaces (h : r.Displaces sig (select rules sig)) :
    choice? (rules ++ [r]) sig = some rules.length := by
  rw [choice?, places_concat, select_concat_of_displaces (displaces_places_iff.1 h)]
  rfl

theorem choice?_concat_of_not_displaces (h : ¬ r.Displaces sig (select rules sig)) :
    choice? (rules ++ [r]) sig = choice? rules sig := by
  rw [choice?, places_concat, select_concat_of_not_displaces (mt displaces_places_iff.2 h)]
  rfl

theorem choice?_lt (h : choice? rules sig = some i) : i < rules.length := by
  induction rules using List.reverseRecOn with
  | nil => cases h
  | append_singleton rules r ih =>
    rw [List.length_append, List.length_singleton]
    by_cases hr : r.Displaces sig (select rules sig)
    · rw [choice?_concat_of_displaces hr] at h
      obtain rfl := Option.some.inj h
      exact Nat.lt_succ_self _
    · rw [choice?_concat_of_not_displaces hr] at h
      exact Nat.lt_succ_of_lt (ih h)

/-- The rule that is chosen is the one that stands at the place. -/
theorem select_eq_choice? : select rules sig = (choice? rules sig).bind (rules[·]?) := by
  induction rules using List.reverseRecOn with
  | nil => rfl
  | append_singleton rules r ih =>
    by_cases hr : r.Displaces sig (select rules sig)
    · rw [select_concat_of_displaces hr, choice?_concat_of_displaces hr]
      simp
    · rw [select_concat_of_not_displaces hr, choice?_concat_of_not_displaces hr, ih]
      rcases hchoice : choice? rules sig with _ | i
      · rfl
      · simp [List.getElem?_append_left (choice?_lt hchoice)]

/-! ## What later rules do to the choice -/

/-- **The rule that is held either stays or gives way for good**, to a later one that is more
specific. -/
theorem choice?_append (before after : List (Rule α)) (sig : Signature) :
    (choice? (before ++ after) sig = choice? before sig
      ∧ select (before ++ after) sig = select before sig)
    ∨ ∃ j r, before.length ≤ j ∧ choice? (before ++ after) sig = some j
      ∧ select (before ++ after) sig = some r
      ∧ r ∈ after ∧ r.Displaces sig (select before sig) := by
  induction after using List.reverseRecOn with
  | nil => simp
  | append_singleton after r ih =>
    rw [← List.append_assoc]
    by_cases hr : r.Displaces sig (select (before ++ after) sig)
    · refine .inr ⟨(before ++ after).length, r, by simp, choice?_concat_of_displaces hr,
        select_concat_of_displaces hr, by simp, ?_⟩
      rcases ih with ⟨-, hstays⟩ | ⟨-, r', -, -, hr', -, hdisplaces⟩
      · rwa [← hstays]
      -- it displaces one that has displaced the first
      · refine ⟨hr.1, fun held hheld => (hr.2 r' hr').trans hr.1 hdisplaces.1 ?_
          (hdisplaces.2 held hheld)⟩
        exact (select_mem hheld).2
    · rw [choice?_concat_of_not_displaces hr, select_concat_of_not_displaces hr]
      refine ih.imp_right fun ⟨j, r', hj, hchoice, hselect, hmem, hdisplaces⟩ => ?_
      exact ⟨j, r', hj, hchoice, hselect, List.mem_append_left _ hmem, hdisplaces⟩

/-! ## Who wins a tie -/

/-- A rule that none is more specific than is chosen if it is held at its turn, and not
otherwise. -/
theorem choice?_eq_some_iff (hi : rules[i]? = some r) (hr : r.Undominated rules sig) :
    choice? rules sig = some i ↔ r.Displaces sig (select (rules.take i) sig) := by
  obtain ⟨hlt, hget⟩ := List.getElem?_eq_some_iff.1 hi
  have hlength : (rules.take i).length = i := List.length_take_of_le (Nat.le_of_lt hlt)
  have hsplit : rules.take i ++ [r] ++ rules.drop (i + 1) = rules := by
    rw [List.append_assoc, List.singleton_append, ← hget, ← List.drop_eq_getElem_cons hlt,
      List.take_append_drop]
  have hlater := choice?_append (rules.take i ++ [r]) (rules.drop (i + 1)) sig
  rw [hsplit] at hlater
  constructor
  · intro hchoice
    by_contra hnot
    rcases hlater with ⟨hstays, -⟩ | ⟨j, -, hj, hchoice', -⟩
    · rw [hchoice, choice?_concat_of_not_displaces hnot] at hstays
      have := choice?_lt hstays.symm
      omega
    · rw [List.length_append, List.length_singleton] at hj
      obtain rfl := Option.some.inj (hchoice.symm.trans hchoice')
      omega
  · intro hdisplaces
    rcases hlater with ⟨hstays, -⟩ | ⟨-, r', -, -, -, hmem, hdisplaces'⟩
    · rw [hstays, choice?_concat_of_displaces hdisplaces, hlength]
    -- nothing displaces a rule that none is more specific than
    · have hmore := hdisplaces'.2 r (select_concat_of_displaces hdisplaces)
      exact absurd hmore (hr.2 r' (List.mem_of_mem_drop hmem) hdisplaces'.1)

/-- When a later rule is chosen, it has displaced one that the earlier did not displace. -/
theorem exists_third_of_later_chosen (hi : rules[i]? = some r) (hr : r.Undominated rules sig)
    (hij : i < j) {later : Rule α} (hj : rules[j]? = some later)
    (hchoice : choice? rules sig = some j) :
    ∃ third ∈ rules.take i, third.pattern.accepts sig = true ∧ later.MoreSpecific sig third
      ∧ ¬ r.MoreSpecific sig third := by
  have hnot : ¬ r.Displaces sig (select (rules.take i) sig) := by
    intro hdisplaces
    obtain rfl := Option.some.inj (((choice?_eq_some_iff hi hr).2 hdisplaces).symm.trans hchoice)
    omega
  rcases hthird : select (rules.take i) sig with _ | third
  · exact absurd ⟨hr.1, fun _ h => by rw [hthird] at h; cases h⟩ hnot
  have hless : ¬ r.MoreSpecific sig third :=
    fun h => hnot ⟨hr.1, fun b hb => Option.some.inj (hthird.symm.trans hb) ▸ h⟩
  refine ⟨third, (select_mem hthird).1, (select_mem hthird).2, ?_, hless⟩
  have hlater := choice?_append (rules.take i) (rules.drop i) sig
  rw [List.take_append_drop] at hlater
  rcases hlater with ⟨hstays, -⟩ | ⟨-, r', -, -, hselect, -, hdisplaces⟩
  -- the place that is chosen is not before the earlier rule
  · have hlt := choice?_lt (hstays.symm.trans hchoice)
    rw [List.length_take] at hlt
    omega
  · rw [select_eq_choice?, hchoice, Option.bind_some, hj] at hselect
    obtain rfl := Option.some.inj hselect
    exact hdisplaces.2 third hthird

/-- **Among rules that none is more specific than, what decides is whom they meet.** Such a rule is
chosen exactly if it displaces the one that is held when its turn comes. Where a later one is chosen
before it, a third rule comes before both that only the later is more specific than; so the two are
not equal, and where every rule that accepts is one that none is more specific than, the first is
chosen. -/
theorem tie_goes_to_displacing (rules : List (Rule α)) (sig : Signature) :
    select rules sig = (choice? rules sig).bind (rules[·]?)
    ∧ ∀ i r, rules[i]? = some r → r.Undominated rules sig →
      (choice? rules sig = some i ↔ r.Displaces sig (select (rules.take i) sig))
      ∧ ∀ j later, i < j → rules[j]? = some later → choice? rules sig = some j →
        ∃ third ∈ rules.take i, third.pattern.accepts sig = true ∧ later.MoreSpecific sig third
          ∧ ¬ r.MoreSpecific sig third :=
  ⟨select_eq_choice?, fun _ _ hi hr => ⟨choice?_eq_some_iff hi hr,
    fun _ _ hij hj hchoice => exists_third_of_later_chosen hi hr hij hj hchoice⟩⟩

/-- Three rules for calls of two positions: the middle one is specific about the first position, and
the others about the second, the last more so than the first. -/
def crossingRules : List (Rule Unit) :=
  [⟨⟨[.any, .number], none⟩, ()⟩, ⟨⟨[.callable, .any], none⟩, ()⟩,
    ⟨⟨[.any, .exact .int], none⟩, ()⟩]

/-- The middle rule meets the first, which it does not displace, and the last does. -/
theorem tie_goes_to_displacing_crossing :
    let sig : Signature := ⟨[.func ⟨0⟩, .int]⟩
    choice? crossingRules sig ≠ some 1
    ∧ ∃ third ∈ crossingRules.take 1, third.pattern.accepts sig = true := by
  intro sig
  have htie := (tie_goes_to_displacing crossingRules sig).2 1 _ rfl (by decide)
  refine ⟨fun h => absurd (htie.1.1 h).2 ?_, ?_⟩
  · exact fun hless => absurd (hless _ rfl) (by decide)
  · obtain ⟨third, hmem, haccepts, -, -⟩ := htie.2 2 _ (by decide) rfl (by decide)
    exact ⟨third, hmem, haccepts⟩

/-- **The first of the rules that none is more specific than is not always chosen**, as it would be
if the choice compared them all: of the crossing rules the middle and the last are such, and the
last is chosen. -/
theorem later_rule_wins_tie :
    ¬ ∀ (rules : List (Rule Unit)) (sig : Signature) (i j : Nat) (r later : Rule Unit),
      rules[i]? = some r → rules[j]? = some later → r.Undominated rules sig →
      later.Undominated rules sig → i < j → choice? rules sig ≠ some j := by
  intro h
  exact h crossingRules ⟨[.func ⟨0⟩, .int]⟩ 1 2 _ _ rfl rfl (by decide) (by decide) (by decide)
    (by decide)

end Interpose
