import CanonicalLR.Iteration

namespace CanonicalLR.Step

variable {σ ρ : Type} {step : σ → Step σ ρ}

-- A chain of `n` steps.
inductive Reaches (step : σ → Step σ ρ) : Nat → σ → σ → Prop
  | refl (s : σ) : Reaches step 0 s s
  | next {n : Nat} {s₁ s₂ s₃ : σ} (head : step s₁ = .next s₂) (tail : Reaches step n s₂ s₃) :
    Reaches step (n + 1) s₁ s₃

namespace Reaches

variable {m n : Nat} {s₁ s₂ s₃ : σ}

theorem single (h : step s₁ = .next s₂) : Reaches step 1 s₁ s₂ := .next h (.refl _)

theorem trans (h₁ : Reaches step m s₁ s₂) (h₂ : Reaches step n s₂ s₃) :
    Reaches step (m + n) s₁ s₃ := by
  induction h₁
  case refl => simpa using h₂
  case next k _ _ _ h _ hi =>
    have : k + 1 + n = k + n + 1 := by omega
    exact this ▸ .next h (hi h₂)

theorem invariant {P : σ → Prop} (keep : ∀ s s', P s → step s = .next s' → P s')
    (h : Reaches step n s₁ s₂) (hp : P s₁) : P s₂ := by
  induction h
  case refl => exact hp
  case next h _ hi => exact hi (keep _ _ hp h)

-- A run of a loop starts with any chain from its state.
theorem run (h : Reaches step m s₁ s₂) : run step (m + n) s₁ = run step n s₂ := by
  induction h
  case refl => simp
  case next k _ _ _ h _ hi =>
    have : k + 1 + n = k + n + 1 := by omega
    rw [this, Step.run, h]
    exact hi

-- A round that changes something.
theorem stabilize {α : Type} [DecidableEq α] {f : α → α} {a b c : α} (h : f a = b) (hn : b ≠ a)
    (hr : Reaches (stabilize f) n b c) : Reaches (stabilize f) (n + 1) a c :=
  .next (by simp [Step.stabilize, h, hn]) hr

end Reaches

variable {limit : Nat} {s s' : σ} {r : ρ}

theorem reaches_of_run (h : run step limit s = some r) :
    ∃ n s', n < limit ∧ Reaches step n s s' ∧ step s' = .done r := by
  induction limit generalizing s
  case zero => contradiction
  case succ limit hi =>
    simp only [run] at h
    split at h
    case h_1 t ht =>
      obtain ⟨n, s', hn, hr, hd⟩ := hi h
      exact ⟨n + 1, s', by omega, .next ht hr, hd⟩
    case h_2 hd =>
      cases h
      exact ⟨0, s, by omega, .refl s, hd⟩

-- What holds of a state together with those before it.
theorem states_invariant {P : List σ → σ → Prop}
    (keep : ∀ before s s', P before s → step s = .next s' → P (before ++ [s]) s') {earlier before after : List σ}
    (hp : P earlier s) (h : states step limit s = before ++ s' :: after) : P (earlier ++ before) s' := by
  induction limit generalizing before s earlier
  case zero => simp [states] at h
  case succ limit hi =>
    cases before
    case nil =>
      obtain ⟨rfl, _⟩ := List.cons.inj h
      rwa [List.append_nil]
    case cons b before =>
      obtain ⟨rfl, hs⟩ := List.cons.inj h
      split at hs
      case h_1 t ht =>
        rw [List.append_cons]
        exact hi (keep _ _ _ hp ht) hs
      case h_2 => simp at hs

theorem Reaches.getLast?_states {n : Nat} (h : Reaches step n s s') (hd : step s' = .done r) (hn : n < limit) :
    (states step limit s).getLast? = some s' := by
  induction h generalizing limit
  all_goals
    obtain ⟨limit, rfl⟩ := Nat.exists_eq_add_of_lt (Nat.zero_lt_of_lt hn)
    rw [Nat.zero_add, states]
  case refl => rw [hd, List.getLast?_singleton]
  case next h _ hi =>
    rw [h, List.getLast?_cons, hi hd (by omega), Option.getD_some]

-- A loop ends within as many steps as a quantity allows that every step decreases.
theorem run_isSome {P : σ → Prop} {m : σ → Nat} (keep : ∀ s s', P s → step s = .next s' → P s')
    (decrease : ∀ s s', P s → step s = .next s' → m s' < m s) (h : P s) (hl : m s < limit) :
    (run step limit s).isSome := by
  induction limit generalizing s
  case zero => contradiction
  case succ limit hi =>
    simp only [run]
    split
    case h_1 t ht =>
      have := decrease s t h ht
      exact hi (keep s t h ht) (by omega)
    case h_2 => rfl

end CanonicalLR.Step
