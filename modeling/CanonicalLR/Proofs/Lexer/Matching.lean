import CanonicalLR.Lexer
import Mathlib.Data.List.Pairwise
import Mathlib.Data.List.TakeWhile

namespace CanonicalLR.Lexer

open Text (utf8Length)

variable {clauses : List Clause} {r : Clause} {p : Pattern} {action : Action} {offset n : Nat} {c : Char}
variable {cs piece rest : List Char}

namespace Pattern

-- Whether there is a match at a character.
def starts : Pattern → Char → Bool
  | char d, c => c = d
  | run cls, c => cls c

-- All that a pattern matches.
def Matches : Pattern → List Char → Prop
  | char c, piece => piece = [c]
  | run cls, piece => piece ≠ [] ∧ ∀ c ∈ piece, cls c

theorem extent_eq_zero : p.extent (c :: cs) = 0 ↔ ¬ p.starts c := by
  cases p
  case char d => simp [extent, starts]
  case run cls => by_cases hc : cls c <;> simp [extent, starts, hc]

theorem extent_run {cls : Char → Bool} : (run cls).extent cs = (cs.takeWhile cls).length := by
  cases cs <;> rfl

theorem extent_le : p.extent cs ≤ cs.length := by
  cases p
  case char d =>
    cases cs
    case nil => exact Nat.le_refl _
    case cons c cs => by_cases hc : c = d <;> simp [extent, hc]
  case run cls => exact extent_run ▸ (List.takeWhile_prefix cls).length_le

theorem Matches.exists_cons (h : p.Matches piece) : ∃ c cs, piece = c :: cs ∧ p.starts c := by
  cases p
  case char d => exact ⟨d, [], h, decide_eq_true rfl⟩
  case run cls =>
    obtain ⟨c, cs, rfl⟩ := List.exists_cons_of_ne_nil h.left
    exact ⟨c, cs, rfl, h.right c List.mem_cons_self⟩

theorem matches_take (h : p.extent cs ≠ 0) : p.Matches (cs.take (p.extent cs)) := by
  cases p
  case char d =>
    cases cs
    case nil => contradiction
    case cons c cs =>
      have hc : c = d := by simpa [extent] using h
      simp [extent, hc, Matches]
  case run cls =>
    rw [extent_run] at h ⊢
    rw [← List.prefix_iff_eq_take.mp (cs.takeWhile_prefix cls)]
    exact ⟨List.ne_nil_of_length_pos (Nat.pos_of_ne_zero h), fun d hd => List.mem_takeWhile_imp hd⟩

-- No match is longer than the extent.
theorem Matches.length_le (h : p.Matches piece) : piece.length ≤ p.extent (piece ++ rest) := by
  cases p
  case char d =>
    cases h
    simp [extent]
  case run cls =>
    rw [extent_run, List.takeWhile_append_of_pos h.right, List.length_append]
    exact Nat.le_add_right ..

theorem extent_eq_zero_iff_matches : p.extent cs = 0 ↔ ∀ piece, piece <+: cs → ¬ p.Matches piece := by
  constructor
  case mp =>
    rintro h piece ⟨rest, rfl⟩ hm
    obtain ⟨c, cs, rfl, _⟩ := hm.exists_cons
    have hle := hm.length_le.trans_eq h
    contradiction
  case mpr =>
    intro h
    by_contra hne
    exact h _ (List.take_prefix _ _) (matches_take hne)

end Pattern

-- A clause matches a first part of a text, and no clause matches more of it.
structure Takes (clauses : List Clause) (r : Clause) (piece rest : List Char) : Prop where
  mem : r ∈ clauses
  applies : r.pattern.Matches piece
  longest : ∀ r' ∈ clauses, ∀ piece', piece' <+: piece ++ rest → r'.pattern.Matches piece' →
    piece'.length ≤ piece.length

-- What is assumed of a lexer that is made of clauses: at every place of a text it takes a longest match and, where
-- there is no match, a single character.
inductive Scans (clauses : List Clause) : Nat → List Char → List Span → Prop
  | nil {offset : Nat} : Scans clauses offset [] []
  | matched {offset : Nat} {r : Clause} {piece rest : List Char} {spans : List Span}
    (takes : Takes clauses r piece rest) (rec : Scans clauses (offset + utf8Length piece) rest spans) :
    Scans clauses offset (piece ++ rest) (.matched r.action offset piece :: spans)
  | unmatched {offset : Nat} {c : Char} {rest : List Char} {spans : List Span}
    (none : ∀ r ∈ clauses, ∀ piece, piece <+: c :: rest → ¬ r.pattern.Matches piece)
    (rec : Scans clauses (offset + c.utf8Size) rest spans) :
    Scans clauses offset (c :: rest) (.unmatched offset c :: spans)

-- No character starts matches of two clauses.
def Separate (clauses : List Clause) : Prop :=
  clauses.Pairwise fun r r' => ∀ c, r.pattern.starts c → ¬ r'.pattern.starts c

theorem longest_eq_none : longest cs clauses = none ↔ ∀ r ∈ clauses, r.pattern.extent cs = 0 := by
  induction clauses
  case nil => simp [longest]
  case cons r rs hi =>
    rw [longest, List.forall_mem_cons, ← hi]
    split
    case h_1 hn => simp [hn]
    case h_2 hs => split <;> simp [hs]

-- The clause that is chosen has the greatest extent.
theorem exists_of_longest (h : longest cs clauses = some (action, n)) : ∃ r ∈ clauses, r.action = action ∧
    r.pattern.extent cs = n ∧ 0 < n ∧ ∀ r' ∈ clauses, r'.pattern.extent cs ≤ n := by
  induction clauses generalizing action n
  case nil => contradiction
  case cons r rs hi =>
    rw [longest] at h
    split at h
    case h_1 hn =>
      split at h
      case isTrue => contradiction
      case isFalse hne =>
        cases h
        have hz := longest_eq_none.mp hn
        refine ⟨r, .head _, rfl, rfl, Nat.pos_of_ne_zero hne, List.forall_mem_cons.mpr ⟨Nat.le_refl _, ?_⟩⟩
        exact fun r' hr => hz r' hr ▸ Nat.zero_le _
    case h_2 hs =>
      obtain ⟨r', hr, ha, he, hpos, hle⟩ := hi hs
      split at h
      case isTrue hm =>
        cases h
        refine ⟨r, .head _, rfl, rfl, Nat.lt_of_lt_of_le hpos hm, List.forall_mem_cons.mpr ⟨Nat.le_refl _, ?_⟩⟩
        exact fun r' hr => Nat.le_trans (hle r' hr) hm
      case isFalse hm =>
        cases h
        exact ⟨r', .tail _ hr, ha, he, hpos, List.forall_mem_cons.mpr ⟨Nat.le_of_not_le hm, hle⟩⟩

theorem Separate.eq {r' : Clause} (h : Separate clauses) (hr : r ∈ clauses) (hr' : r' ∈ clauses)
    (hc : r.pattern.starts c) (hc' : r'.pattern.starts c) : r = r' := by
  have : Std.Symm fun r r' : Clause => ∀ c, r.pattern.starts c → ¬ r'.pattern.starts c :=
    ⟨fun _ _ h c hc hc' => h c hc' hc⟩
  by_contra hne
  exact h.forall hr hr' hne c hc hc'

theorem starts_of_extent (h : 0 < p.extent (c :: cs)) : p.starts c := by
  by_contra hc
  exact Nat.ne_of_gt h (Pattern.extent_eq_zero.mpr hc)

namespace Takes

theorem of_longest (h : Lexer.longest cs clauses = some (action, n)) :
    ∃ r, r.action = action ∧ 0 < n ∧ (cs.take n).length = n ∧ Takes clauses r (cs.take n) (cs.drop n) := by
  obtain ⟨r, hr, ha, rfl, hpos, hle⟩ := exists_of_longest h
  have hlength : (cs.take (r.pattern.extent cs)).length = r.pattern.extent cs :=
    List.length_take_of_le Pattern.extent_le
  refine ⟨r, ha, hpos, hlength, hr, Pattern.matches_take (Nat.ne_of_gt hpos), fun r' hr' piece' hp hm => ?_⟩
  rw [List.take_append_drop] at hp
  obtain ⟨rest, rfl⟩ := hp
  rw [hlength]
  exact Nat.le_trans hm.length_le (hle r' hr')

theorem extent_eq (h : Takes clauses r piece rest) : r.pattern.extent (piece ++ rest) = piece.length := by
  have hle : piece.length ≤ r.pattern.extent (piece ++ rest) := h.applies.length_le
  have hne : r.pattern.extent (piece ++ rest) ≠ 0 := by
    obtain ⟨c, cs, rfl, _⟩ := h.applies.exists_cons
    exact Nat.ne_of_gt (Nat.lt_of_lt_of_le (Nat.succ_pos _) hle)
  have hge := h.longest r h.mem _ (List.take_prefix _ _) (Pattern.matches_take hne)
  rw [List.length_take_of_le Pattern.extent_le] at hge
  exact Nat.le_antisymm hge hle

theorem longest_eq (hd : Separate clauses) (h : Takes clauses r piece rest) :
    Lexer.longest (piece ++ rest) clauses = some (r.action, piece.length) := by
  have he := h.extent_eq
  obtain ⟨c, cs, rfl, hc⟩ := h.applies.exists_cons
  cases hl : Lexer.longest (c :: cs ++ rest) clauses
  case none =>
    rw [longest_eq_none.mp hl r h.mem] at he
    contradiction
  case some found =>
    obtain ⟨r', hr', ha, hn, hpos, _⟩ := exists_of_longest hl
    obtain rfl := hd.eq h.mem hr' hc (starts_of_extent (hn ▸ hpos))
    rw [← he, hn, ha]

end Takes

theorem spans_of_longest (hcs : cs = piece ++ rest) (hn : 0 < piece.length)
    (h : longest cs clauses = some (action, piece.length)) : spans clauses offset cs =
      .matched action offset piece :: spans clauses (offset + utf8Length piece) rest := by
  subst hcs
  obtain ⟨c, cs, rfl⟩ := List.exists_cons_of_length_pos hn
  rw [List.cons_append] at h ⊢
  rw [spans, h]
  simp

theorem spans_of_none (h : longest (c :: cs) clauses = none) :
    spans clauses offset (c :: cs) = .unmatched offset c :: spans clauses (offset + c.utf8Size) cs := by
  rw [spans, h]

theorem scans_spans (clauses : List Clause) (offset : Nat) (cs : List Char) :
    Scans clauses offset cs (spans clauses offset cs) := by
  induction hm : cs.length using Nat.strong_induction_on generalizing offset cs
  case _ m hi =>
    cases cs
    case nil =>
      rw [spans]
      exact .nil
    case cons c cs =>
      cases h : longest (c :: cs) clauses
      case none =>
        rw [spans_of_none h]
        have hz := longest_eq_none.mp h
        exact .unmatched (fun r hr => Pattern.extent_eq_zero_iff_matches.mp (hz r hr))
          (hi _ (by simp [← hm]) _ _ rfl)
      case some found =>
        obtain ⟨action, n⟩ := found
        obtain ⟨r, rfl, hpos, hlength, hl⟩ := Takes.of_longest h
        have hcs := (List.take_append_drop n (c :: cs)).symm
        have hdrop : ((c :: cs).drop n).length < m := by
          rw [List.length_drop, ← hm, List.length_cons]
          omega
        rw [spans_of_longest hcs (hlength.symm ▸ hpos) (by rw [h, hlength])]
        have hscans : Scans clauses offset ((c :: cs).take n ++ (c :: cs).drop n) _ :=
          .matched hl (hi _ hdrop _ _ rfl)
        rwa [← hcs] at hscans

-- Nothing else is a scan if the clauses are told apart by the first character.
theorem Scans.eq_spans {ss : List Span} (hd : Separate clauses) (h : Scans clauses offset cs ss) :
    ss = spans clauses offset cs := by
  induction h
  case nil => rw [spans]
  case matched hl _ hi =>
    obtain ⟨_, _, hp, _⟩ := hl.applies.exists_cons
    rw [spans_of_longest rfl (by simp [hp]) (hl.longest_eq hd), hi]
  case unmatched hn _ hi =>
    rw [spans_of_none (longest_eq_none.mpr fun r hr => Pattern.extent_eq_zero_iff_matches.mpr (hn r hr)), hi]

theorem tokens?_of_scans {σ : Type} {ss : List Span} {input : String} (hd : Separate clauses)
    (h : Scans clauses 0 input.toList ss) (t : Tracker σ) (s : σ) (v : Vocabulary) :
    tokens? t v (utf8Length input.toList) s ss = tokenize? clauses t s v input := by
  rw [h.eq_spans hd, tokenize?]

end CanonicalLR.Lexer
