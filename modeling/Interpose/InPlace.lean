import Interpose.Graph.Error

/-!
# Calls in place

A graph that is edited, or a pass over one, stays where it is, and a call works on it. The call
looks at it, changes one thing after another, and may fail at any point; failing takes nothing
back. So a call that is refused leaves everything as it was only if every check comes before the
first change.
-/

set_option autoImplicit false

namespace Interpose

/-- A call on something that stays where it is. What it has changed before it fails stays
changed. -/
abbrev InPlace (σ α : Type) : Type := ExceptT GraphError (StateM σ) α

namespace InPlace

variable {σ α β γ : Type} {s : σ}

/-- What the call answers, and what it was made on as it is afterwards. -/
def on (x : InPlace σ α) (s : σ) : Except GraphError α × σ := x.run.run s

/-- A question about how things stand, which may fail. -/
def ask (f : σ → Except GraphError α) : InPlace σ α := do
  match f (← get) with
  | .ok a => return a
  | .error e => throw e

/-! ## Running calls -/

@[simp] theorem on_pure (a : α) : (pure a : InPlace σ α).on s = (.ok a, s) := rfl

@[simp] theorem on_throw (e : GraphError) : (throw e : InPlace σ α).on s = (.error e, s) := rfl

@[simp] theorem on_bind (x : InPlace σ α) (k : α → InPlace σ β) :
    (x >>= k).on s = match x.on s with
      | (.ok a, s') => (k a).on s'
      | (.error e, s') => (.error e, s') := by
  rcases h : x.on s with ⟨_ | _, s'⟩
  all_goals
    simp only [on, ExceptT.run_bind, StateT.run_bind] at h ⊢
    rw [h]
    rfl

@[simp] theorem on_get : (get : InPlace σ σ).on s = (.ok s, s) := rfl

@[simp] theorem on_modify (f : σ → σ) : (modify f : InPlace σ Unit).on s = (.ok (), f s) := rfl

@[simp] theorem on_modifyGet (f : σ → α × σ) :
    (modifyGet f : InPlace σ α).on s = (.ok (f s).1, (f s).2) := rfl

@[simp] theorem on_ask (f : σ → Except GraphError α) : (ask f).on s = (f s, s) := by
  rw [ask, on_bind, on_get]
  cases h : f s <;> simp [h]

theorem on_forM_cons (c : γ) (l : List γ) (x : γ → InPlace σ Unit) :
    ((c :: l).forM x).on s = (x c >>= fun _ => l.forM x).on s := rfl

/-! ## Checks first -/

/-- What a call comes to whose outcome is known at once: it makes what the outcome says, or fails
and leaves everything. -/
def settled (s : σ) : Except GraphError (σ × α) → Except GraphError α × σ
  | .ok (s', a) => (.ok a, s')
  | .error e => (.error e, s)

@[simp] theorem settled_ok {s' : σ} {a : α} : settled s (.ok (s', a)) = (.ok a, s') := rfl

@[simp] theorem settled_error {e : GraphError} :
    settled s (.error e : Except GraphError (σ × α)) = (.error e, s) := rfl

/-- **A question that comes first** settles with what comes after it. -/
theorem on_ask_bind {f : σ → Except GraphError α} {k : α → InPlace σ β}
    {h : α → Except GraphError (σ × β)} (hk : ∀ a, f s = .ok a → (k a).on s = settled s (h a)) :
    (ask f >>= k).on s = settled s (f s >>= h) := by
  rw [on_bind, on_ask]
  cases hf : f s with
  | error e => rfl
  | ok a => exact hk a hf

/-- The same for a call whose outcome is written in another way. -/
theorem on_ask_bind_map {f : σ → Except GraphError α} {k : α → InPlace σ β}
    {h : α → Except GraphError γ} {F : γ → σ × β}
    (hk : ∀ a, f s = .ok a → (k a).on s = settled s ((h a).map F)) :
    (ask f >>= k).on s = settled s ((f s >>= h).map F) := by
  rw [on_bind, on_ask]
  cases hf : f s with
  | error e => rfl
  | ok a => exact hk a hf

/-- A call whose answer is made of what another call answers. -/
theorem on_answer {x : InPlace σ α} {r : Except GraphError (σ × α)} (h : x.on s = settled s r)
    (F : α → β) :
    (x >>= fun a => pure (F a)).on s = settled s (r.map fun p => (p.1, F p.2)) := by
  rw [on_bind, h]
  rcases r with e | ⟨s', a⟩ <;> rfl

end InPlace

end Interpose
