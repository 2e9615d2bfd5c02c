namespace CanonicalLR

-- The body of a loop goes on in a new state or stops with a result. Running it takes a limit on the number of
-- steps, and more steps never change a result.
inductive Step (σ ρ : Type) where
  | next (state : σ)
  | done (result : ρ)

namespace Step

variable {σ ρ : Type}

def run (step : σ → Step σ ρ) : Nat → σ → Option ρ
  | 0, _ => none
  | limit + 1, s =>
    match step s with
    | .next s => run step limit s
    | .done r => some r

theorem run_mono {step : σ → Step σ ρ} {m n : Nat} {s : σ} {r : ρ}
    (h : run step m s = some r) (hmn : m ≤ n) : run step n s = some r := by
  induction m generalizing n s
  case zero => contradiction
  case succ m hi =>
    cases n
    case zero => omega
    case succ n =>
      simp only [run] at h ⊢
      split
      case h_1 s' hs => exact hi (by simpa [hs] using h) (by omega)
      case h_2 r' hs => simpa [hs] using h

-- The states in which a run executes the body, in order.
def states (step : σ → Step σ ρ) : Nat → σ → List σ
  | 0, _ => []
  | limit + 1, s =>
    s :: match step s with
      | .next s => states step limit s
      | .done _ => []

section Stabilize

variable {α : Type} [DecidableEq α] {f : α → α}

-- Apply `f` over and over, until nothing changes any more.
def stabilize (f : α → α) (a : α) : Step α α :=
  let b := f a
  if b = a then .done a else .next b

theorem run_stabilize_stable {n : Nat} {a b : α} (h : run (stabilize f) n a = some b) : f b = b := by
  induction n generalizing a
  case zero => contradiction
  case succ n hi =>
    simp only [run, stabilize] at h
    split at h
    case h_1 s hs =>
      split at hs <;> cases hs
      exact hi h
    case h_2 r hr =>
      split at hr <;> cases hr
      cases h
      assumption

theorem run_stabilize_invariant {P : α → Prop} (keep : ∀ a, P a → P (f a)) {n : Nat} {a b : α}
    (ha : P a) (h : run (stabilize f) n a = some b) : P b := by
  induction n generalizing a
  case zero => contradiction
  case succ n hi =>
    simp only [run, stabilize] at h
    split at h
    case h_1 s hs =>
      split at hs <;> cases hs
      exact hi (keep _ ha) h
    case h_2 r hr =>
      split at hr <;> cases hr
      cases h
      exact ha

-- A bounded quantity that grows with every change limits the number of changes.
theorem run_stabilize_isSome {P : α → Prop} {m : α → Nat} {bound : Nat}
    (keep : ∀ a, P a → P (f a)) (le : ∀ a, P a → m a ≤ bound)
    (grow : ∀ a, P a → f a ≠ a → m a < m (f a))
    {n : Nat} {a : α} (ha : P a) (hn : bound < m a + n) : (run (stabilize f) n a).isSome := by
  induction n generalizing a
  case zero =>
    have := le a ha
    omega
  case succ n hi =>
    simp only [run, stabilize]
    by_cases hf : f a = a
    case pos => simp [hf]
    case neg =>
      have := grow a ha hf
      simp only [hf, if_false]
      exact hi (keep a ha) (by omega)

end Stabilize

end Step
end CanonicalLR
