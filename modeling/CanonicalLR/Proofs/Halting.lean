import CanonicalLR.Proofs.Construction
import CanonicalLR.Proofs.Propagation

namespace CanonicalLR

open Step

variable {V : Type} {g : Grammar V} {f : FirstSets} {e : AutomatonError}

theorem Item.expand_eq_error {i : Item} (h : i.expand g f = .error e) : e = .epsilonLookahead i := by
  simp only [expand] at h
  split at h
  case h_1 => split at h <;> cases h; rfl
  case h_2 => cases h

-- A closure that fails has met an item that cannot be expanded.
theorem ItemSet.closure_eq_error {s : ItemSet} (h : s.closure g g.firstSets = .error e) :
    ∃ i, e = .epsilonLookahead i := by
  have hs := Worklist.run_isSome (g := g) Grammar.bounded_firstSets s.nodup_items
  obtain ⟨r, hr⟩ := Option.isSome_iff_exists.mp hs
  rw [closure, hr] at h
  cases r <;> cases h
  obtain ⟨_, w, _, _, hd⟩ := reaches_of_run hr
  obtain ⟨i, _, hi⟩ := Worklist.step_eq_error hd
  exact ⟨i, Item.expand_eq_error hi⟩

namespace Automaton

open Exploration

theorem build_error_cases (h : build g = .error e) :
    (∃ count, e = .notAugmented count) ∨ (∃ i, e = .epsilonLookahead i) ∨ e = .tooManyStates ∧ Crowded g := by
  obtain ⟨count, he, _⟩ | ⟨s, _, hs⟩ | h := build_eq_error h
  · exact .inl ⟨count, he⟩
  · exact .inr (.inl (ItemSet.closure_eq_error hs))
  · exact .inr (.inr h)

theorem build_halts (g : Grammar V) :
    -- The nonterminals that vanish, and the FIRST sets that result from them.
    (Halts (pass Grammar.discover g.productions) (g.productions.length + 1) g.emptyHeads ∧
      ∀ limit known, run (pass Grammar.discover g.productions) limit g.emptyHeads = some known →
        (∀ n, n ∈ known ↔ n ∈ g.nullable) ∧
        Halts (pass FirstSets.impose (g.constraints known)) (g.firstLimit + 1) (g.propagationStart known) ∧
        ∀ limit f,
          run (pass FirstSets.impose (g.constraints known)) limit (g.propagationStart known) = some f →
          ∀ α, f.sequence α = g.firstSets.sequence α) ∧
    -- The closure of any items.
    (∀ s : ItemSet, Halts (Worklist.step g g.firstSets) (Worklist.limit g s.items) ⟨[], s.items⟩ ∧
      ∀ e, s.closure g g.firstSets = .error e → ∃ i, e = .epsilonLookahead i) ∧
    -- The search for states.
    (∀ items, rootKernel.closure g g.firstSets = .ok items →
      Halts (Exploration.step g g.firstSets) (Exploration.limit g) ⟨[⟨rootKernel, items⟩], []⟩) ∧
    ∀ e, build g = .error e →
      (∃ count, e = .notAugmented count) ∨ (∃ i, e = .epsilonLookahead i) ∨
        e = .tooManyStates ∧ Crowded g := by
  refine ⟨⟨Grammar.discover_halts g, fun _ known hk => ?first⟩, fun s => ?closure, fun items hi => ?search,
    fun e => build_error_cases⟩
  case first =>
    have hk (n : Nonterminal) : n ∈ known ↔ n ∈ g.nullable := Grammar.mem_discovered hk
    exact ⟨hk, Grammar.impose_halts hk, fun _ f hf => Grammar.sequence_propagated hk hf⟩
  case closure =>
    refine ⟨.of_run ?_, fun e => ItemSet.closure_eq_error⟩
    exact Worklist.run_isSome Grammar.bounded_firstSets s.nodup_items
  case search => exact .of_run (run_isSome hi)

end Automaton
end CanonicalLR
