import Mathlib.Data.List.Forall2
import Interpose.Fault

/-!
# Accepted checks

Edits and lowering are written as checks one after another, each of which may refuse. A sequence is
accepted exactly if each of its checks is.
-/

set_option autoImplicit false

namespace Interpose

variable {ε α β : Type}

/-- A sequence of two steps gives a result exactly if both do. -/
theorem bind_eq_ok {x : Except ε α} {f : α → Except ε β} {b : β} :
    x >>= f = .ok b ↔ ∃ a, x = .ok a ∧ f a = .ok b := by
  cases x with
  | error e => exact ⟨nofun, nofun⟩
  | ok a =>
    refine ⟨fun h => ⟨a, rfl, h⟩, ?_⟩
    rintro ⟨a', ha, hb⟩
    cases ha
    exact hb

/-- The same for a check that gives nothing but its acceptance. -/
theorem check_eq_ok {x : Except ε PUnit} {f : PUnit → Except ε β} {b : β} :
    x >>= f = .ok b ↔ x = .ok () ∧ f () = .ok b := by
  rw [bind_eq_ok]
  exact ⟨fun ⟨_, h⟩ => h, fun h => ⟨_, h⟩⟩

/-- A refusal under a condition is passed exactly if the condition fails. -/
theorem guard_eq_ok {p : Prop} [Decidable p] {e : ε} {k : α → Except ε β} {x : Except ε β} {b : β} :
    (if p then (throw e : Except ε α) >>= k else x) = .ok b ↔ ¬p ∧ x = .ok b := by
  by_cases hp : p
  · rw [if_pos hp]
    exact ⟨nofun, fun h => absurd hp h.1⟩
  · rw [if_neg hp]
    exact ⟨fun h => ⟨hp, h⟩, fun h => h.2⟩

/-- The same for a refusal at the end. -/
theorem unless_eq_ok {p : Prop} [Decidable p] {e : ε} :
    (if p then throw e else pure () : Except ε PUnit) = .ok () ↔ ¬p := by
  by_cases hp : p
  · rw [if_pos hp]
    exact ⟨nofun, fun h => absurd hp h⟩
  · rw [if_neg hp]
    exact ⟨fun _ => hp, fun _ => rfl⟩

/-- All elements of a list pass a check exactly if each does. -/
theorem forM_eq_ok {l : List α} {f : α → Except ε PUnit} :
    l.forM f = .ok () ↔ ∀ a ∈ l, f a = .ok () := by
  induction l with
  | nil => exact ⟨fun _ => by simp, fun _ => rfl⟩
  | cons a l ih =>
    have hcons : (a :: l).forM f = f a >>= fun _ => l.forM f := rfl
    rw [hcons, bind_eq_ok, List.forall_mem_cons, ← ih]
    exact ⟨fun ⟨_, h₁, h₂⟩ => ⟨h₁, h₂⟩, fun ⟨h₁, h₂⟩ => ⟨_, h₁, h₂⟩⟩

/-- The results of a list of steps stand at the places of what they are made from. -/
theorem getElem?_of_mapM_eq_ok {l : List α} {f : α → Except ε β} {l' : List β}
    (h : l.mapM f = .ok l') {i : Nat} {b : β} (hb : l'[i]? = some b) :
    ∃ a, l[i]? = some a ∧ f a = .ok b := by
  induction l generalizing l' i with
  | nil =>
    cases h
    simp at hb
  | cons a l ih =>
    rw [List.mapM_cons, bind_eq_ok] at h
    obtain ⟨b', hb', h⟩ := h
    obtain ⟨rest, hrest, heq⟩ := bind_eq_ok.1 h
    cases heq
    cases i with
    | zero =>
      obtain rfl : b' = b := by simpa using hb
      exact ⟨a, rfl, hb'⟩
    | succ i => exact ih hrest (by simpa using hb)

/-- There are as many results as steps. -/
theorem length_of_mapM_eq_ok {l : List α} {f : α → Except ε β} {l' : List β}
    (h : l.mapM f = .ok l') : l'.length = l.length := by
  induction l generalizing l' with
  | nil =>
    cases h
    rfl
  | cons a l ih =>
    rw [List.mapM_cons, bind_eq_ok] at h
    obtain ⟨b, -, h⟩ := h
    obtain ⟨rest, hrest, heq⟩ := bind_eq_ok.1 h
    cases heq
    rw [List.length_cons, List.length_cons, ih hrest]

/-- A list of steps is accepted exactly if each is, with the results in order. -/
theorem mapM_eq_ok_iff_forall₂ {l : List α} {f : α → Except ε β} {l' : List β} :
    l.mapM f = .ok l' ↔ List.Forall₂ (fun a b => f a = .ok b) l l' := by
  induction l generalizing l' with
  | nil =>
    rw [List.forall₂_nil_left_iff]
    exact ⟨fun h => (Except.ok.inj h).symm, fun h => h ▸ rfl⟩
  | cons a l ih =>
    rw [List.mapM_cons, List.forall₂_cons_left_iff]
    simp only [bind_eq_ok, ih]
    constructor
    · rintro ⟨b, hb, rest, hrest, heq⟩
      exact ⟨b, rest, hb, hrest, (Except.ok.inj heq).symm⟩
    · rintro ⟨b, rest, hb, hrest, rfl⟩
      exact ⟨b, hb, rest, hrest, rfl⟩

end Interpose
