import CanonicalLR.Calculator.Basic
import CanonicalLR.Example.Scanner
import CanonicalLR.Example.Tokens
import CanonicalLR.Proofs.Lexer.Tokens

namespace CanonicalLR.Example.Scanner

open CanonicalLR.Lexer
open Lexicon (isBlank)
open Text (utf8Length)

variable {v : Vocabulary} {c : Char} {cs before after text piece : List Char} {input : String} {p : Position}

theorem isBlank_of_isSpace (h : isSpace c) : isBlank c := by
  simp only [isSpace, Bool.or_eq_true, decide_eq_true_eq] at h
  obtain ((rfl | rfl) | rfl) | rfl := h <;> rfl

theorem implements : Implements clauses lexicon isSpace where
  skips_blank _ := isBlank_of_isSpace
  blank c cs h := by
    simp only [isBlank, Bool.or_eq_true, decide_eq_true_eq] at h
    obtain (((rfl | rfl) | rfl) | rfl) | rfl := h
    case inl.inr => exact .inr ⟨rfl, longest_char (by rfl)⟩
    all_goals exact .inl ⟨rfl, longest_run (by rfl)⟩
  numeral c cs h := by
    have hall : ∀ d ∈ "()+-*/a \t\r\n\x0c".toList, ¬ d.isDigit := by simp
    have hc : c ∉ "()+-*/a \t\r\n\x0c".toList := fun hm => hall c hm h
    exact longest_run (by simp_all [clauses, Pattern.starts, isSpace])
  sign c cs hb hd := by
    simp only [lexicon]
    split
    case h_1 => exact longest_char (by rfl)
    case h_2 hc =>
      simp only [Lexicon.arithmetic]
      split
      case h_7 =>
        exact longest_eq_none.mpr
          (by simp_all [clauses, Pattern.extent_eq_zero, Pattern.starts, isSpace, isBlank])
      all_goals exact longest_char (by rfl)

theorem separate : Separate clauses := by
  have h c (hc : isSpace c) : c ∉ "\n()+-*/a".toList ∧ ¬ c.isDigit := by
    refine ⟨fun hm => ?_, Calculator.not_isDigit_of_isBlank (isBlank_of_isSpace hc)⟩
    have hall : ∀ d ∈ "\n()+-*/a".toList, ¬ isSpace d := by simp [isSpace]
    exact hall c hm hc
  simp_all [Separate, clauses, Pattern.starts]

-- Within a line, the column is the number of bytes.
theorem advance_line (h : ∀ c ∈ piece, c ≠ '\n') :
    piece.foldl (Position.advance Char.utf8Size) p = ⟨p.row, p.column + utf8Length piece⟩ := by
  induction piece generalizing p
  case nil => rfl
  case cons c cs hi =>
    have ⟨hc, hcs⟩ := List.forall_mem_cons.mp h
    rw [List.foldl_cons, hi hcs, Position.advance, if_neg hc, utf8Length, Nat.add_assoc]

-- The column behind some text is counted from where the line has been noted to start.
structure Knows (line : Line) (before : List Char) : Prop where
  start_le : line.start ≤ utf8Length before
  behind : behind lexicon before = ⟨line.newlines + 1, utf8Length before - line.start + 1⟩

theorem tracks : Tracks tracker lexicon isSpace text Knows where
  position line before after h _ := (if_pos h.start_le).trans (congrArg some h.behind.symm)
  keep line before piece h hpiece := by
    have hn c (hc : c ∈ piece) : c ≠ '\n' := by
      rintro rfl
      simpa [isSpace] using hpiece '\n' hc
    have hle := h.start_le
    refine ⟨by simp; omega, ?_⟩
    rw [behind_append, h.behind]
    exact (advance_line hn).trans (by simp; omega)
  newline line before h := by
    refine ⟨Nat.le_refl _, ?_⟩
    rw [behind_append, h.behind]
    simp [tracker, Position.advance]

theorem scan?_eq : scan? v input = some (scan v input) :=
  tokenize?_of_implements implements tracks ⟨Nat.le_refl 0, rfl⟩

-- Characters that both lexers know take up a single byte.

theorem utf8Size_of_isBlank (h : isBlank c) : c.utf8Size = 1 := by
  simp only [isBlank, Bool.or_eq_true, decide_eq_true_eq] at h
  obtain (((rfl | rfl) | rfl) | rfl) | rfl := h <;> rfl

theorem utf8Size_of_name? {name : String} (h : Lexicon.arithmetic.name? c = some name) : c.utf8Size = 1 := by
  obtain hd | hm := Calculator.Lexer.name?_eq_some.mp h
  · have ⟨_, hle⟩ := Char.isDigit_iff_toNat.mp hd
    exact Char.utf8Size_eq_one_iff.mpr (Nat.le_trans hle (by decide))
  · have hall : ∀ s ∈ Calculator.Lexer.punctuation, s.1.utf8Size = 1 := by decide
    exact hall _ hm

theorem foldl_eq (h : ∀ c ∈ piece, c.utf8Size = 1) :
    piece.foldl (Position.advance lexicon.width) p = piece.foldl (Position.advance Lexicon.arithmetic.width) p := by
  refine List.foldl_ext _ _ p fun q c hc => ?_
  simp only [Position.advance, lexicon, Lexicon.arithmetic, h c hc]

theorem name?_eq (h : c ≠ 'a') : lexicon.name? c = Lexicon.arithmetic.name? c := by
  simp only [Lexicon.name?, lexicon]

-- What comes behind a piece only matters if the piece has a name, so that its characters are single bytes.
theorem tokens_eq_piece {ds : List Char} {ps : List (List Char)} (hb : ¬ isBlank c) (ha : c ≠ 'a')
    (hds : c.utf8Size = 1 → ∀ d ∈ ds, d.utf8Size = 1)
    (hi : ∀ q, lexicon.tokens v ps q = Lexicon.arithmetic.tokens v ps q) :
    lexicon.tokens v ((c :: ds) :: ps) p = Lexicon.arithmetic.tokens v ((c :: ds) :: ps) p := by
  rw [Lexicon.tokens_cons hb, Lexicon.tokens_cons hb, Lexicon.classify, Lexicon.classify, name?_eq ha]
  cases hn : Lexicon.arithmetic.name? c
  case none => rfl
  case some name =>
    have hc := utf8Size_of_name? hn
    rw [foldl_eq (List.forall_mem_cons.mpr ⟨hc, hds hc⟩), hi]

theorem tokens_eq (h : 'a' ∉ cs) :
    lexicon.tokens v (Lexicon.pieces cs) p = Lexicon.arithmetic.tokens v (Lexicon.pieces cs) p := by
  induction cs using Lexicon.text_induction generalizing p
  case nil => rfl
  case numeral ds cs hn hds hcs hi =>
    obtain ⟨d, ds, rfl⟩ := List.exists_cons_of_ne_nil hn
    have ⟨hd, htail⟩ := List.forall_mem_cons.mp hds
    have hone (c : Char) (hc : c.isDigit) : c.utf8Size = 1 := utf8Size_of_name? (if_pos hc)
    rw [Lexicon.pieces_numeral_append hn hds hcs]
    refine tokens_eq_piece (fun hb => Calculator.not_isDigit_of_isBlank hb hd) ?_
      (fun _ c hc => hone c (htail c hc)) ?_
    · rintro rfl
      exact absurd hd (by decide)
    · exact fun q => hi fun hm => h (List.mem_append_right _ hm)
  case single c cs hd hi =>
    have ⟨ha, hcs⟩ : 'a' ≠ c ∧ 'a' ∉ cs := by simpa [not_or] using h
    by_cases hb : isBlank c
    case pos =>
      have hadvance := foldl_eq (p := p) (List.forall_mem_singleton.mpr (utf8Size_of_isBlank hb))
      simp only [List.foldl_cons, List.foldl_nil] at hadvance
      rw [Lexicon.tokens_blank hb, Lexicon.tokens_blank hb, hadvance, hi hcs]
    case neg =>
      rw [Lexicon.pieces_cons hd]
      exact tokens_eq_piece hb ha.symm (fun _ => nofun) fun q => hi hcs

theorem scan_eq (h : 'a' ∉ input.toList) : scan v input = Lexicon.arithmetic.tokenize v input := tokens_eq h

-- The two lexers agree on texts without the letter that only one of them knows. They even fail alike.
theorem scan?_agrees (v : Vocabulary) (input : String) (h : 'a' ∉ input.toList) :
    (∀ ts, scan? v input = some (.ok ts) ↔ Calculator.Lexer.tokenize? v input = some (.ok ts)) ∧
      (∀ spans, Scans clauses 0 input.toList spans →
        tokens? tracker v (utf8Length input.toList) ⟨0, 0⟩ spans = scan? v input) ∧
      ∃ r, scan? v input = some r ∧ Calculator.Lexer.tokenize? v input = some r ∧
        scan v input = r ∧ Calculator.tokenize v input = r.mapError .lexical := by
  have hscan : scan? v input = some (Lexicon.arithmetic.tokenize v input) := by rw [scan?_eq, scan_eq h]
  refine ⟨fun ts => ?_, fun spans hs => tokens?_of_scans separate hs _ _ v, _, hscan,
    Calculator.Lexer.tokenize?_eq, scan_eq h, rfl⟩
  rw [hscan, Calculator.Lexer.tokenize?_eq]

theorem scan?_agrees_sum :
    'a' ∉ "1 +\n 2".toList ∧ scan? Calculator.vocabulary "1 +\n 2" = some (.ok [
      ⟨"1", Calculator.num, ⟨1, 1⟩⟩, ⟨"+", Calculator.plus, ⟨1, 3⟩⟩, ⟨"2", Calculator.num, ⟨2, 2⟩⟩,
      .endOfInput ⟨2, 3⟩]) := by
  have h : 'a' ∉ "1 +\n 2".toList := by decide
  refine ⟨h, ((scan?_agrees Calculator.vocabulary "1 +\n 2" h).left _).mpr ?_⟩
  rw [Calculator.Lexer.tokenize?_eq]
  rfl

end CanonicalLR.Example.Scanner
