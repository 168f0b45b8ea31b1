namespace Lalr

/-- The outcome of an operation and the state that it left behind. -/
structure Attempt (ε σ α : Type) where
  outcome : Except ε α
  state : σ

namespace Attempt

variable {ε σ α β : Type}

def succeed (a : α) (s : σ) : Attempt ε σ α := ⟨.ok a, s⟩

def fail (e : ε) (s : σ) : Attempt ε σ α := ⟨.error e, s⟩

def map (f : α → β) (r : Attempt ε σ α) : Attempt ε σ β := ⟨f <$> r.outcome, r.state⟩

@[simp] theorem map_state (f : α → β) (r : Attempt ε σ α) : (r.map f).state = r.state := rfl

theorem map_eq_succeed {f : α → β} {r : Attempt ε σ α} {b : β} {s : σ}
    (h : r.map f = succeed b s) : ∃ a, r = succeed a s ∧ f a = b := by
  rcases r with ⟨e | a, s'⟩
  · cases h
  · cases h
    exact ⟨a, rfl, rfl⟩

def andThen (r : Attempt ε σ α) (next : α → σ → Attempt ε σ β) : Attempt ε σ β :=
  match r with
  | ⟨.ok a, s⟩ => next a s
  | ⟨.error e, s⟩ => ⟨.error e, s⟩

@[simp] theorem andThen_succeed (a : α) (s : σ) (next : α → σ → Attempt ε σ β) :
    (succeed a s : Attempt ε σ α).andThen next = next a s := rfl

@[simp] theorem andThen_fail (e : ε) (s : σ) (next : α → σ → Attempt ε σ β) :
    (fail e s : Attempt ε σ α).andThen next = fail e s := rfl

end Attempt

end Lalr
