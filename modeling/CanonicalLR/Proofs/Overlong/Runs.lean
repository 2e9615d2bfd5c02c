import CanonicalLR.Proofs.Overlong.Construction

namespace CanonicalLR.Example.Overlong

open Automaton

variable {y : Symbol} {n : Nat} {automaton : Automaton} {q : StateId}

-- The state waits for the symbol that is repeated.
def Waits (automaton : Automaton) (q : StateId) : Prop :=
  ∃ state k, automaton.state? q = some state ∧ state.items.Holds ⟨⟨1⟩, k⟩ .eof

theorem Waits.exists_target (hy : Repeatable y) (hn : UInt16.size ≤ n)
    (ha : Canonical (grammar y n) automaton) (h : Waits automaton q) :
    ∃ state q' k, automaton.state? q = some state ∧ state.items.Holds ⟨⟨1⟩, k⟩ .eof ∧
      state.target? y = some q' ∧ Waits automaton q' := by
  have ⟨state, k, hs, hh⟩ := h
  have ⟨q', state', hq, hs', hh'⟩ := ha.exists_target (augmented hy) hs hh (next?_body hn)
  exact ⟨state, q', k, hs, hh, hq, state', k + 1, hs', hh'⟩

open CanonicalLR.Symbol (word)

-- What a symbol amounts to in occurrences of `x`, if `x` is what is repeated. A derivation keeps their number.
def weight (n : Nat) : Symbol → Nat
  | .terminal t => if t = x then 1 else 0
  | .nonterminal m => if m = a then 0 else n

def total (n : Nat) : List Symbol → Nat
  | [] => 0
  | y :: α => weight n y + total n α

-- The machine shifts one `x` after the other.
theorem Waits.shift (hn : UInt16.size ≤ n) (ha : Canonical (grammar (.terminal x) n) automaton)
    (hc : (Table.ofAutomaton (grammar (.terminal x) n) automaton).conflicts = [])
    (h : Waits automaton q) : ∃ q', Waits automaton q' ∧
      (Table.ofAutomaton (grammar (.terminal x) n) automaton).action? q x = some (.shift q') := by
  have ⟨state, q', k, hs, hh, hq, h'⟩ := h.exists_target (.inl rfl) hn ha
  exact ⟨q', h', Table.action?_of_mem hc <|
    Table.mem_actions_shift.mpr ⟨state, hs, hq, ⟨⟨1⟩, k⟩, hh.mem, next?_body hn⟩⟩

theorem Waits.reaches (hn : UInt16.size ≤ n) (ha : Canonical (grammar (.terminal x) n) automaton)
    (hc : (Table.ofAutomaton (grammar (.terminal x) n) automaton).conflicts = [])
    (rest : List (Token Terminal)) (m : Nat) (below : List StateId) (labels : List ProductionId)
    (operations : List Operation) (h : Waits automaton q) : ∃ q' below', Waits automaton q' ∧
      Step.Reaches (Table.ofAutomaton (grammar (.terminal x) n) automaton).machine.step m
        ⟨q :: below, Token.ofKinds (.replicate m x) ++ rest, labels, operations⟩
        ⟨q' :: below', rest, labels, .replicate m .shift ++ operations⟩ := by
  induction m generalizing q below operations
  case zero => exact ⟨q, below, h, .refl _⟩
  case succ m hi =>
    have ⟨q', h', hact⟩ := h.shift hn ha hc
    have ⟨q'', below'', h'', hr⟩ := hi (q :: below) (.shift :: operations) h'
    refine ⟨q'', below'', h'', .next (Machine.step_eq_next.mpr (.shift hact)) ?_⟩
    rw [List.replicate_succ']
    simpa [Token.ofKinds] using hr

-- In front of the end of input, the machine reduces one empty `A` after the other.
theorem Waits.reduce (hn : UInt16.size ≤ n) (ha : Canonical (grammar (.nonterminal a) n) automaton)
    (hc : (Table.ofAutomaton (grammar (.nonterminal a) n) automaton).conflicts = [])
    (h : Waits automaton q) : ∃ q', Waits automaton q' ∧
      (Table.ofAutomaton (grammar (.nonterminal a) n) automaton).action? q .eof =
        some (.reduce ⟨2⟩ a 0) ∧
      (Table.ofAutomaton (grammar (.nonterminal a) n) automaton).goto? q a = some q' := by
  have ⟨state, q', k, hs, hh, hq, h'⟩ := h.exists_target (.inr rfl) hn ha
  have hempty : state.items.Holds ⟨⟨2⟩, 0⟩ .eof := by
    refine (ha.closure hs).predicted_holds (p := ⟨⟨2⟩, a, [], _⟩) hh (next?_body hn) (.head _)
      (.inr ⟨?_, rfl⟩)
    rw [rest_body]
    exact derives_replicate.epsilon
  have hm := (Table.mem_actions_reduce (g := grammar (.nonterminal a) n)).mpr ⟨state, hs, ⟨⟨2⟩, 0⟩, _,
    hempty, next?_empty, by simp [ProductionId.accept], production?_empty, rfl, rfl, rfl⟩
  exact ⟨q', h', Table.action?_of_mem hc hm,
    Table.goto?_eq_some.mpr ⟨state, hs, hq, _, hh.mem, next?_body hn⟩⟩

end CanonicalLR.Example.Overlong
