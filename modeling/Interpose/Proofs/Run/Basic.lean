import Interpose.Run.Basic

/-!
# Two runs side by side

A run is a function from a state to a result and a state, or to nothing. Two runs *agree* when from
every state they end in the same way: both without a result, both with the same fault in the same
state, or with related values in the same state. Agreement goes through sequences, so programs are
compared step by step.
-/

set_option autoImplicit false

namespace Interpose

namespace Run

variable {σ α β γ δ : Type}

/-! ## Single steps -/

theorem ofExcept_apply (r : Except Fault α) (s : σ) : (ofExcept r : Run σ α) s = some (r, s) := rfl

theorem get_apply (s : σ) : (get : Run σ σ) s = some (.ok s, s) := rfl

theorem modify_apply (f : σ → σ) (s : σ) : (modify f : Run σ PUnit) s = some (.ok ⟨⟩, f s) := rfl

theorem bind_apply (x : Run σ α) (f : α → Run σ β) (s : σ) :
    (x >>= f) s = match x s with
      | none => none
      | some (.error e, s') => some (.error e, s')
      | some (.ok a, s') => f a s' := by
  rcases hx : x s with _ | ⟨r, s'⟩
  · show (x s).bind _ = none
    rw [hx]
    rfl
  · cases r with
    | error e =>
      show (x s).bind _ = some (Except.error e, s')
      rw [hx]
      rfl
    | ok a =>
      show (x s).bind _ = f a s'
      rw [hx]
      rfl

/-- A run that begins by looking at its state. -/
theorem get_bind_apply (f : σ → Run σ α) (s : σ) : (get >>= f) s = f s s := by
  rw [bind_apply, get_apply]

/-! ## Agreement -/

/-- The runs end in the same way from every state, with values that `R` relates or with a fault that
`P` allows in the state where it arises. -/
def Agree (R : α → β → Prop) (P : Fault → σ → Prop) (x : Run σ α) (y : Run σ β) : Prop :=
  ∀ s, (x s = none ∧ y s = none)
    ∨ (∃ e s', x s = some (.error e, s') ∧ y s = some (.error e, s') ∧ P e s')
    ∨ ∃ a b s', x s = some (.ok a, s') ∧ y s = some (.ok b, s') ∧ R a b

namespace Agree

variable {R : α → β → Prop} {Q : γ → δ → Prop} {P : Fault → σ → Prop}

theorem pure {a : α} {b : β} (h : R a b) : Agree R P (pure a) (Pure.pure b) :=
  fun s => .inr (.inr ⟨a, b, s, rfl, rfl, h⟩)

theorem outOfFuel : Agree R P outOfFuel Run.outOfFuel := fun _ => .inl ⟨rfl, rfl⟩

/-- Where no fault is forbidden, a run agrees with itself. -/
theorem refl (x : Run σ α) : Agree Eq (fun _ _ => True) x x := by
  intro s
  rcases x s with _ | ⟨e | a, s'⟩
  · exact .inl ⟨rfl, rfl⟩
  · exact .inr (.inl ⟨e, s', rfl, rfl, trivial⟩)
  · exact .inr (.inr ⟨a, a, s', rfl, rfl, rfl⟩)

theorem mono {R' : α → β → Prop} {x : Run σ α} {y : Run σ β} (h : Agree R P x y)
    (hR : ∀ a b, R a b → R' a b) : Agree R' P x y := by
  intro s
  rcases h s with hnone | hfault | ⟨a, b, s', hx, hy, hab⟩
  · exact .inl hnone
  · exact .inr (.inl hfault)
  · exact .inr (.inr ⟨a, b, s', hx, hy, hR a b hab⟩)

/-- Runs that agree are followed by runs that agree. -/
theorem bind {x : Run σ α} {y : Run σ β} {f : α → Run σ γ} {g : β → Run σ δ} (h : Agree R P x y)
    (hf : ∀ a b, R a b → Agree Q P (f a) (g b)) : Agree Q P (x >>= f) (y >>= g) := by
  intro s
  rw [bind_apply, bind_apply]
  rcases h s with ⟨hx, hy⟩ | ⟨e, s', hx, hy, he⟩ | ⟨a, b, s', hx, hy, hab⟩
  · rw [hx, hy]
    exact .inl ⟨rfl, rfl⟩
  · rw [hx, hy]
    exact .inr (.inl ⟨e, s', rfl, rfl, he⟩)
  · rw [hx, hy]
    exact hf a b hab s'

/-- Runs that agree on equal values are the same. -/
theorem eq {x y : Run σ α} (h : Agree Eq P x y) : x = y := by
  funext s
  rcases h s with ⟨hx, hy⟩ | ⟨e, s', hx, hy, -⟩ | ⟨a, b, s', hx, hy, rfl⟩
  all_goals rw [hx, hy]

/-- The faults of runs that agree are allowed. -/
theorem allowed {x : Run σ α} {y : Run σ β} (h : Agree R P x y) {s s' : σ} {e : Fault}
    (hx : x s = some (.error e, s')) : P e s' := by
  rcases h s with ⟨hx', -⟩ | ⟨e', s'', hx', -, he⟩ | ⟨a, b, s'', hx', -, -⟩
  · rw [hx'] at hx
    cases hx
  · rw [hx'] at hx
    cases hx
    exact he
  · rw [hx'] at hx
    cases hx

end Agree

end Run

/-! ## Surroundings that keep a record -/

/-- A call that was made, with what came of it. -/
structure MadeCall where
  callee : Value
  args : List Value
  result : Except Fault Value

/-- The surroundings with a record of all calls that came to an end, in order. -/
def Surroundings.recorded {σ : Type} (env : Surroundings σ) : Surroundings (σ × List MadeCall) where
  global s name := env.global s.1 name
  call f args := ExceptT.mk fun s =>
    (env.call f args s.1).map fun (r, s') => (r, (s', s.2 ++ [⟨f, args, r⟩]))

end Interpose
