import CanonicalLR.Proofs.ViablePrefix
import Mathlib.Data.List.Nodup

namespace CanonicalLR

variable {V : Type} {g : Grammar V} {f : FirstSets}

namespace Exploration

variable {met : List StateId} {q : StateId} {n : Nat}

-- The states have been met for the first time in the order of their numbers.
def Numbered (met : List StateId) (n : Nat) : Prop := met.eraseDups = (List.range n).map .mk

namespace Numbered

theorem mem_iff (h : Numbered met n) : q ∈ met ↔ q.index < n := by
  rw [← List.mem_eraseDups, h]
  simp only [List.mem_map, List.mem_range]
  exact ⟨fun ⟨_, hi, hq⟩ => hq ▸ hi, fun hi => ⟨_, hi, rfl⟩⟩

theorem again (h : Numbered met n) (hq : q.index < n) : Numbered (met ++ [q]) n := by
  rwa [Numbered, eraseDups_concat, if_pos (h.mem_iff.mpr hq)]

theorem next (h : Numbered met n) : Numbered (met ++ [⟨n⟩]) (n + 1) := by
  have : ⟨n⟩ ∉ met := fun hn => absurd (h.mem_iff.mp hn) (Nat.lt_irrefl n)
  rw [Numbered, eraseDups_concat, if_neg this, h, List.range_succ, List.map_append, List.map_singleton]

end Numbered

variable {cores cores' cores'' : List Core} {kernel items : ItemSet} {qs rs : List StateId}
variable {xs : List Symbol} {ts : List (Symbol × StateId)} {e e' : Exploration}

-- States that are met one after the other.
structure Discovers (cores : List Core) (qs : List StateId) (cores' : List Core) : Prop where
  distinct : (cores.map Core.kernel).Nodup → (cores'.map Core.kernel).Nodup
  order : ∀ met, Numbered met cores.length → Numbered (met ++ qs) cores'.length

namespace Discovers

theorem refl : Discovers cores [] cores where
  distinct := id
  order met h := by rwa [List.append_nil]

theorem trans (h₁ : Discovers cores qs cores') (h₂ : Discovers cores' rs cores'') :
    Discovers cores (qs ++ rs) cores'' where
  distinct := h₂.distinct ∘ h₁.distinct
  order met h := by
    rw [← List.append_assoc]
    exact h₂.order _ (h₁.order met h)

theorem reach (h : reach g f kernel cores = .ok (q, cores')) : Discovers cores [q] cores' := by
  obtain ⟨⟨core, hq, _⟩, rfl⟩ | ⟨hn, rfl, items, _, rfl⟩ := reach_cases h
  · have ⟨hl, _⟩ := List.getElem?_eq_some_iff.mp hq
    exact { distinct := id, order := fun met h => h.again hl }
  · refine { distinct := fun hd => ?distinct, order := fun met h => ?order }
    case distinct =>
      rw [List.map_append, List.map_singleton, ← List.concat_eq_append]
      refine hd.concat fun hm => ?_
      have ⟨core, hc, hk⟩ := List.mem_map.mp hm
      exact hn core hc hk
    case order => simpa using h.next

theorem follow (h : follow g f items xs cores = .ok (ts, cores')) :
    Discovers cores (ts.map Prod.snd) cores' := by
  induction xs generalizing cores ts cores'
  case nil =>
    cases h
    exact .refl
  case cons x xs hi =>
    obtain ⟨q, cores₁, us, hr, hf, rfl⟩ := follow_cons h
    exact (reach hr).trans (hi hf)

end Discovers

-- What holds of the numbers that have been given at all times.
structure Ordered (e : Exploration) : Prop where
  distinct : (e.cores.map Core.kernel).Nodup
  order : Numbered (.root :: e.transitions.flatMap (·.map Prod.snd)) e.cores.length
  earlier : ∀ i < e.cores.length, i ≠ 0 → ∃ (j : Nat) (ts : List (Symbol × StateId)) (x : Symbol),
    j < i ∧ e.transitions[j]? = some ts ∧ (x, ⟨i⟩) ∈ ts

namespace Ordered

theorem initial : Ordered ⟨[⟨kernel, items⟩], []⟩ where
  distinct := by simp
  order := by rfl
  earlier i hi hn := absurd (Nat.lt_one_iff.mp hi) hn

theorem step (he : Ordered e) (h : step g f e = .next e') : Ordered e' := by
  obtain ⟨core, ts, cores', hcore, hf, rfl⟩ := step_eq_next h
  have hd := Discovers.follow hf
  have order := hd.order _ he.order
  refine { distinct := hd.distinct he.distinct, order := by simpa using order, earlier := ?earlier }
  intro i hi hn
  have ⟨hl, _⟩ := List.getElem?_eq_some_iff.mp hcore
  by_cases ho : i < e.cores.length
  case pos =>
    have ⟨j, us, x, hj, hus, hx⟩ := he.earlier i ho hn
    exact ⟨j, us, x, hj, getElem?_of_prefix (List.prefix_append ..) hus, hx⟩
  case neg =>
    -- It has not been met before, so it is among the states that have just been met.
    have hm : ⟨i⟩ ∈ ts.map Prod.snd :=
      (List.mem_append.mp (order.mem_iff.mpr hi)).resolve_left fun hm => ho (he.order.mem_iff.mp hm)
    obtain ⟨⟨x, _⟩, hx, rfl⟩ := List.mem_map.mp hm
    exact ⟨e.transitions.length, ts, x, by omega, List.getElem?_concat_length, hx⟩

end Ordered
end Exploration

namespace Automaton

variable {a : Automaton}

-- The targets of all transitions, state by state.
def targets (a : Automaton) : List StateId := a.states.flatMap (·.transitions.map Prod.snd)

-- The automaton is what the exploration of a grammar comes to.
structure Explored (g : Grammar V) (a : Automaton) : Prop where
  ids : ∀ q, (∃ s, a.state? q = some s) ↔ q.index < a.states.length
  root : ∃ s, a.state? .root = some s ∧ s.kernel.items = [⟨⟨.accept, 0⟩, .singleton .eof⟩]
  closed : ∀ q s, a.state? q = some s → s.kernel.closure g g.firstSets = .ok s.items
  -- Every symbol is followed once, in the order of the declarations.
  symbols : ∀ q s, a.state? q = some s →
    s.transitions.map Prod.fst = g.symbols.filter fun x => !(s.items.advance g x).isEmpty
  transition : ∀ q s x, a.state? q = some s →
    ((∃ r, s.target? x = some r) ↔ g.Declares x ∧ (s.items.advance g x).isEmpty = false)
  target : ∀ q s x r, a.state? q = some s → s.target? x = some r →
    ∃ t, a.state? r = some t ∧ t.kernel = s.items.advance g x
  distinct : ∀ q r s t, a.state? q = some s → a.state? r = some t → s.kernel = t.kernel → q = r
  earlier : ∀ q s, a.state? q = some s → q ≠ .root →
    ∃ r t x, r.index < q.index ∧ a.state? r = some t ∧ t.target? x = some q
  order : (.root :: a.targets).eraseDups = (List.range a.states.length).map .mk

end Automaton

namespace Exploration

end Exploration

namespace Automaton

open Exploration

variable {e : Exploration}

end Automaton

end CanonicalLR
