import CanonicalLR.Proofs.ErrorDetection
import Mathlib.Data.List.Induction

namespace CanonicalLR

section

open CanonicalLR.Symbol (word)

variable {V : Type} {g : Grammar V} {a : Automaton} {α β γ δ ρ σ : List Symbol}
variable {c : Center} {p : Production V} {q : StateId} {t u : Terminal} {x : Symbol}
variable {ids : List ProductionId} {v w : List Terminal}

namespace Grammar

end Grammar

namespace Center

end Center

namespace Automaton

open Grammar

-- The state that a string leads to from the root.
def walk? (a : Automaton) (γ : List Symbol) : Option StateId :=
  γ.foldlM (fun q x => (a.state? q).bind (·.target? x)) .root

theorem walk?_append_singleton :
    a.walk? (γ ++ [x]) = some q ↔
      ∃ r s, a.walk? γ = some r ∧ a.state? r = some s ∧ s.target? x = some q := by
  simp [walk?, List.foldlM_append, Option.bind_eq_some_iff]

-- The state that a string leads to holds the item.
def HoldsAfter (a : Automaton) (γ : List Symbol) (c : Center) (t : Terminal) : Prop :=
  ∃ q s, a.walk? γ = some q ∧ a.state? q = some s ∧ s.items.Holds c t

namespace HoldsAfter

theorem root (ha : Canonical g a) : a.HoldsAfter [] ⟨.accept, 0⟩ .eof := by
  have ⟨s, hs, hh⟩ := ha.root_holds
  exact ⟨.root, s, rfl, hs, hh⟩

theorem advance (hg : g.Augmented) (ha : Canonical g a) (h : a.HoldsAfter γ c t)
    (hx : c.next? g = some x) : a.HoldsAfter (γ ++ [x]) c.advance t := by
  have ⟨q, s, hq, hs, hh⟩ := h
  have ⟨q', s', hx', hs', hh'⟩ := ha.exists_target hg hs hh hx
  exact ⟨q', s', walk?_append_singleton.mpr ⟨q, s, hq, hs, hx'⟩, hs', hh'⟩

-- The marker passes a part of a body.
theorem pass (hg : g.Augmented) (hs : p.Short) (ha : Canonical g a) (h : a.HoldsAfter γ c t)
    (hp : g.production? c.production = some p) (hb : p.body.drop c.position.toNat = α ++ β) :
    a.HoldsAfter (γ ++ α) (c.skip α.length) t := by
  induction α generalizing γ c
  case nil => simpa using h
  case cons x α hi =>
    have ⟨hx, _⟩ := Center.next?_of_drop_eq hp hb
    have := hi (h.advance hg ha hx) hp (Center.drop_advance hs hb)
    simpa [Center.skip_advance] using this

theorem predicted (ha : Canonical g a) (h : a.HoldsAfter γ c u)
    (hn : c.next? g = some (.nonterminal p.head)) (hp : p ∈ g.productions)
    (hf : c.Follows g u t) : a.HoldsAfter γ ⟨p.id, 0⟩ t := by
  have ⟨q, s, hq, hs, hh⟩ := h
  have hp := Grammar.mem_productionsOf.mpr ⟨hp, rfl⟩
  exact ⟨q, s, hq, hs, (ha.closure hs).predicted_holds hh hn hp hf⟩

end HoldsAfter

end Automaton
end

end CanonicalLR
