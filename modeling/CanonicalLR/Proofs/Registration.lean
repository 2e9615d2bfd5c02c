import CanonicalLR.Proofs.Automaton
import CanonicalLR.Table.Basic
import Mathlib.Data.List.Forall2
import Mathlib.Data.List.Induction
import Mathlib.Data.List.Nodup

namespace CanonicalLR

section

variable {ι α : Type}

theorem one_lt_length_iff {l : List α} (hl : l.Nodup) :
    1 < l.length ↔ ∃ a b, a ≠ b ∧ a ∈ l ∧ b ∈ l := by
  match l with
  | [] => simp
  | [c] =>
    simp only [List.length_singleton, Nat.lt_irrefl, false_iff, List.mem_singleton]
    rintro ⟨_, _, hne, rfl, rfl⟩
    exact hne rfl
  | a :: b :: l =>
    have hne : a ≠ b := fun h => (List.nodup_cons.mp hl).left (h ▸ .head _)
    exact iff_of_true (by simp) ⟨a, b, hne, .head _, .tail _ (.head _)⟩

variable [DecidableEq α]

theorem nodup_eraseDups (l : List α) : l.eraseDups.Nodup := by
  induction l using List.reverseRecOn
  case nil => exact .nil
  case append_singleton l a hi =>
    rw [eraseDups_concat]
    split
    case isTrue => exact hi
    case isFalse ha =>
      rw [← List.concat_eq_append]
      exact hi.concat (ha ∘ List.mem_eraseDups.mp)

end

theorem TerminalSet.nodup_toList {s : TerminalSet} : s.toList.Nodup := by
  refine (List.nodup_range.map fun i j h => ?_).filter _
  cases h
  rfl

namespace Cells

variable {κ α : Type} [DecidableEq κ] [DecidableEq α]
variable {cells : Cells κ α} {es : List (κ × α)} {key k : κ} {value : α} {values : List α}

theorem keys_register : (cells.register key value).map Prod.fst =
    if key ∈ cells.map Prod.fst then cells.map Prod.fst else cells.map Prod.fst ++ [key] := by
  induction cells
  case nil => rfl
  case cons c cells hi =>
    simp only [register]
    by_cases hc : c.1 = key
    case pos => simp [hc]
    case neg =>
      have : key ≠ c.1 := fun h => hc h.symm
      simp only [hc, if_false, List.map_cons, hi, List.mem_cons, this, false_or]
      split <;> rfl

theorem nodup_keys_register (h : (cells.map Prod.fst).Nodup) :
    ((cells.register key value).map Prod.fst).Nodup := by
  rw [keys_register]
  split
  case isTrue => exact h
  case isFalse hk =>
    rw [← List.concat_eq_append]
    exact h.concat hk

-- What holds of no cells at all, and is kept by every entry, holds in the end.
theorem ofEntries_induction {P : Cells κ α → List (κ × α) → Prop} (nil : P [] [])
    (register : ∀ cells es key value, P cells es →
      P (register key value cells) (es ++ [(key, value)])) (es : List (κ × α)) :
    P (ofEntries es) es := by
  induction es using List.reverseRecOn
  case nil => exact nil
  case append_singleton es e hi =>
    rw [ofEntries, List.foldl_append]
    exact register _ es e.1 e.2 hi

theorem nodup_keys_ofEntries : ((ofEntries es).map Prod.fst).Nodup :=
  ofEntries_induction (P := fun cells _ => (cells.map Prod.fst).Nodup) .nil
    (fun _ _ _ _ => nodup_keys_register) es

theorem entries_ofEntries :
    (ofEntries es).entries k = ((es.filter (·.1 = k)).map Prod.snd).eraseDups := by
  refine ofEntries_induction
    (P := fun cells es => cells.entries k = ((es.filter (·.1 = k)).map Prod.snd).eraseDups)
    rfl (fun cells es key value hi => ?_) es
  rw [entries_register]
  by_cases hk : k = key
  case neg =>
    have : key ≠ k := fun h => hk h.symm
    simp [hk, this, hi]
  case pos =>
    subst hk
    have : ((es ++ [(k, value)]).filter (·.1 = k)).map Prod.snd =
        (es.filter (·.1 = k)).map Prod.snd ++ [value] := by
      simp
    rw [if_pos rfl, hi, this, eraseDups_concat]
    simp only [List.mem_eraseDups]

theorem mem_entries_ofEntries : value ∈ (ofEntries es).entries k ↔ (k, value) ∈ es := by
  rw [entries_ofEntries, List.mem_eraseDups]
  simp

theorem nodup_entries_ofEntries : ((ofEntries es).entries k).Nodup := by
  rw [entries_ofEntries]
  exact nodup_eraseDups _

theorem mem_ofEntries (hv : values ≠ []) :
    (k, values) ∈ ofEntries es ↔ (ofEntries es).entries k = values := by
  constructor
  case mp =>
    intro h
    rw [entries, lookup_of_mem nodup_keys_ofEntries h, Option.getD_some]
  case mpr =>
    intro h
    cases hl : (ofEntries es).lookup k
    case none =>
      rw [entries, hl] at h
      exact absurd h.symm hv
    case some as =>
      rw [entries, hl, Option.getD_some] at h
      exact h ▸ mem_of_lookup hl

end Cells
end CanonicalLR
