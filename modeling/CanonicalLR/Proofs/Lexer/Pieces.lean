import CanonicalLR.Proofs.Calculator.Lexing
import CanonicalLR.Proofs.Lexer.Matching

namespace CanonicalLR

namespace Lexicon

variable {l : Lexicon} {v : Vocabulary} {c : Char} {cs ds : List Char} {ps : List (List Char)} {p : Position}

theorem not_of_mem_head?_dropWhile {α : Type} {p : α → Bool} {xs : List α} {x : α}
    (h : x ∈ (xs.dropWhile p).head?) : ¬ p x := by
  have hn := xs.head?_dropWhile_not p
  rw [h] at hn
  simpa using hn

-- A text is empty, or it starts with a longest numeral or with another character.
theorem text_induction {motive : List Char → Prop} (nil : motive [])
    (numeral : ∀ ds cs, ds ≠ [] → (∀ d ∈ ds, d.isDigit) → (∀ d ∈ cs.head?, ¬ d.isDigit) → motive cs →
      motive (ds ++ cs))
    (single : ∀ c cs, ¬ c.isDigit → motive cs → motive (c :: cs)) (cs : List Char) : motive cs := by
  induction hn : cs.length using Nat.strong_induction_on generalizing cs
  case _ n hi =>
    cases cs
    case nil => exact nil
    case cons c cs =>
      by_cases hc : c.isDigit
      case neg => exact single c cs hc (hi cs.length (by simp [← hn]) cs rfl)
      case pos =>
        have hlt : ((c :: cs).dropWhile Char.isDigit).length < n := by
          rw [List.dropWhile_cons_of_pos hc, ← hn, List.length_cons]
          exact Nat.lt_succ_of_le (List.dropWhile_sublist _).length_le
        have hrun := numeral ((c :: cs).takeWhile Char.isDigit) ((c :: cs).dropWhile Char.isDigit)
          (by simp [hc]) (fun d => List.mem_takeWhile_imp) (fun d => not_of_mem_head?_dropWhile) (hi _ hlt _ rfl)
        rwa [List.takeWhile_append_dropWhile] at hrun

theorem pieces_numeral_append (hn : ds ≠ []) (hd : ∀ d ∈ ds, d.isDigit) (hcs : ∀ c ∈ cs.head?, ¬ c.isDigit) :
    pieces (ds ++ cs) = ds :: pieces cs := by
  cases cs
  case nil => rw [List.append_nil, pieces_numeral hn hd, pieces]
  case cons c cs =>
    have hc : ¬ c.isDigit := hcs c rfl
    rw [pieces_append hc, pieces_numeral hn hd, pieces_cons hc, List.singleton_append]

theorem tokens_blank (hc : isBlank c) :
    l.tokens v (pieces (c :: cs)) p = l.tokens v (pieces cs) (p.advance l.width c) := by
  rw [pieces_cons (Calculator.not_isDigit_of_isBlank hc), tokens, if_pos hc]
  rfl

theorem tokens_blanks (hd : ∀ d ∈ ds, isBlank d) :
    l.tokens v (pieces (ds ++ cs)) p = l.tokens v (pieces cs) (ds.foldl (Position.advance l.width) p) := by
  induction ds generalizing p
  case nil => rfl
  case cons d ds hi =>
    have ⟨hfirst, hds⟩ := List.forall_mem_cons.mp hd
    rw [List.cons_append, tokens_blank hfirst, hi hds, List.foldl_cons]

theorem classify_eq_terminal {name : String} (h : l.name? c = some name) : classify l v c p = terminal v name := by
  rw [classify, h]

theorem tokens_cons (hc : ¬ isBlank c) : l.tokens v ((c :: cs) :: ps) p =
    classify l v c p >>= fun kind =>
      (⟨.ofList (c :: cs), kind, p⟩ :: ·) <$> l.tokens v ps ((c :: cs).foldl (Position.advance l.width) p) := by
  rw [tokens, if_neg hc]
  cases classify l v c p
  case error => rfl
  case ok kind =>
    simp only [bind, Except.bind]
    cases l.tokens v ps ((c :: cs).foldl (Position.advance l.width) p) <;> rfl

theorem tokens_cons_eq_error {e : LexicalError} (hc : ¬ isBlank c) : l.tokens v ((c :: cs) :: ps) p = .error e ↔
    classify l v c p = .error e ∨
      ∃ k, classify l v c p = .ok k ∧ l.tokens v ps ((c :: cs).foldl (Position.advance l.width) p) = .error e := by
  rw [tokens_cons hc, bind_eq_error]
  simp only [map_eq_error]

end Lexicon

namespace Lexer

open Lexicon (isBlank)
open Text (utf8Length)

variable {σ : Type} {clauses : List Clause} {l : Lexicon} {skips cls : Char → Bool} {t : Tracker σ} {v : Vocabulary}
variable {action : Action} {offset : Nat} {c : Char} {cs before after piece : List Char} {s : σ}

-- The clauses of a lexer match the pieces of a lexicon. Blanks may be skipped in runs, but for newlines if they
-- have a clause of their own.
structure Implements (clauses : List Clause) (l : Lexicon) (skips : Char → Bool) : Prop where
  skips_blank : ∀ c, skips c → isBlank c
  blank : ∀ c cs, isBlank c →
    skips c ∧ longest (c :: cs) clauses = some (.skip, ((c :: cs).takeWhile skips).length) ∨
      c = '\n' ∧ longest (c :: cs) clauses = some (.newline, 1)
  numeral : ∀ c cs, c.isDigit →
    longest (c :: cs) clauses = some (.token "NUM", ((c :: cs).takeWhile Char.isDigit).length)
  sign : ∀ c cs, ¬ isBlank c → ¬ c.isDigit →
    longest (c :: cs) clauses = (l.sign c).map fun name => (.token name, 1)

-- The position behind some text.
def behind (l : Lexicon) (before : List Char) : Position := before.foldl (Position.advance l.width) .origin

theorem behind_append {ds : List Char} :
    behind l (before ++ ds) = ds.foldl (Position.advance l.width) (behind l before) := List.foldl_append

-- What a lexer knows of the text that it has read leads to the position behind that text. A run that is skipped
-- and a token are no ends of lines, unless newlines are skipped like all other blanks.
structure Tracks (t : Tracker σ) (l : Lexicon) (skips : Char → Bool) (text : List Char)
    (P : σ → List Char → Prop) : Prop where
  position : ∀ s before after, P s before → text = before ++ after →
    t.position? s (utf8Length before) = some (behind l before)
  keep : ∀ s before piece, P s before → (∀ c ∈ piece, skips c ∨ c ≠ '\n') → P s (before ++ piece)
  newline : ∀ s before, P s before →
    P (t.newline s (utf8Length (before ++ ['\n']))) (before ++ ['\n'])

-- If a single clause matches at the next character, it is the one.
theorem longest_eq_extent {p : Pattern} (h : clauses.filter (·.pattern.starts c) = [⟨p, action⟩]) :
    longest (c :: cs) clauses = some (action, p.extent (c :: cs)) := by
  have hr : ⟨p, action⟩ ∈ clauses.filter (·.pattern.starts c) := h ▸ List.mem_singleton_self _
  have ⟨hr, hp⟩ := List.mem_filter.mp hr
  cases hl : longest (c :: cs) clauses
  case none => exact absurd hp (Pattern.extent_eq_zero.mp (longest_eq_none.mp hl _ hr))
  case some found =>
    obtain ⟨r, hr, ha, hn, hpos, _⟩ := exists_of_longest hl
    have hm : r ∈ clauses.filter (·.pattern.starts c) :=
      List.mem_filter.mpr ⟨hr, starts_of_extent (hn ▸ hpos)⟩
    rw [h] at hm
    obtain rfl := List.mem_singleton.mp hm
    exact congrArg some (Prod.ext ha.symm hn.symm)

theorem longest_run (h : clauses.filter (·.pattern.starts c) = [⟨.run cls, action⟩]) :
    longest (c :: cs) clauses = some (action, ((c :: cs).takeWhile cls).length) := longest_eq_extent h

theorem longest_char (h : clauses.filter (·.pattern.starts c) = [⟨.char c, action⟩]) :
    longest (c :: cs) clauses = some (action, 1) := by
  rw [longest_eq_extent h, Pattern.extent, if_pos rfl]

theorem spans_of_run (hc : cls c)
    (h : longest (c :: cs) clauses = some (action, ((c :: cs).takeWhile cls).length)) :
    spans clauses offset (c :: cs) = .matched action offset ((c :: cs).takeWhile cls) ::
      spans clauses (offset + utf8Length ((c :: cs).takeWhile cls)) ((c :: cs).dropWhile cls)  :=
  spans_of_longest List.takeWhile_append_dropWhile.symm (by simp [hc]) h

theorem spans_of_single (h : longest (c :: cs) clauses = some (action, 1)) :
    spans clauses offset (c :: cs) = .matched action offset [c] :: spans clauses (offset + utf8Length [c]) cs :=
  spans_of_longest rfl (Nat.lt_succ_self 0) h

section

variable {text : List Char} {P : σ → List Char → Prop} {name : String}

-- A token is placed where its piece starts, and the tokens of the rest follow.
theorem tokens?_token {stop : Nat} {spans : List Span} {r : Except LexicalError (List (Token Terminal))}
    (ht : Tracks t l skips text P) (hs : P s before) (htext : text = before ++ after)
    (hname : l.name? c = some name) (hr : tokens? t v stop s spans = some r) :
    tokens? t v stop s (.matched (.token name) (utf8Length before) piece :: spans) =
      some (Lexicon.classify l v c (behind l before) >>= fun kind =>
        (⟨.ofList piece, kind, behind l before⟩ :: ·) <$> r) := by
  rw [tokens?, ht.position s before after hs htext, Lexicon.classify_eq_terminal hname, hr]
  cases Lexicon.terminal v name <;> rfl

-- The lexer makes the tokens of the lexicon from a last part of the text.
def Agrees (clauses : List Clause) (t : Tracker σ) (l : Lexicon) (v : Vocabulary) (text : List Char)
    (P : σ → List Char → Prop) (cs : List Char) : Prop :=
  ∀ s before, P s before → text = before ++ cs →
    tokens? t v (utf8Length text) s (spans clauses (utf8Length before) cs) =
      some (l.tokens v (Lexicon.pieces cs) (behind l before))

variable (ht : Tracks t l skips text P)

include ht

theorem agrees_nil : Agrees clauses t l v text P [] := by
  intro s before hs htext
  rw [List.append_nil] at htext
  rw [spans, tokens?, htext, ht.position s before [] hs (by simp [htext])]
  rfl

theorem agrees_newline (hl : longest ('\n' :: cs) clauses = some (.newline, 1))
    (hi : Agrees clauses t l v text P cs) : Agrees clauses t l v text P ('\n' :: cs) := by
  intro s before hs htext
  have hrest := hi _ _ (ht.newline _ _ hs) (by simp [htext])
  rw [spans_of_single hl, tokens?, ← Text.utf8Length_append, hrest, Lexicon.tokens_blank rfl, behind_append]
  rfl

variable (hr : Implements clauses l skips)

include hr

theorem agrees_blanks (hc : skips c)
    (hl : longest (c :: cs) clauses = some (.skip, ((c :: cs).takeWhile skips).length))
    (hi : Agrees clauses t l v text P ((c :: cs).dropWhile skips)) : Agrees clauses t l v text P (c :: cs) := by
  intro s before hs htext
  have hskips : ∀ d ∈ (c :: cs).takeWhile skips, skips d := fun d => List.mem_takeWhile_imp
  have hsplit : text = before ++ (c :: cs).takeWhile skips ++ (c :: cs).dropWhile skips := by
    rw [List.append_assoc, List.takeWhile_append_dropWhile, htext]
  have hrest := hi s _ (ht.keep _ _ _ hs fun d hd => .inl (hskips d hd)) hsplit
  rw [behind_append, ← Lexicon.tokens_blanks fun d hd => hr.skips_blank d (hskips d hd),
    List.takeWhile_append_dropWhile] at hrest
  rw [spans_of_run hc hl, tokens?, ← Text.utf8Length_append, hrest]

theorem agrees_numeral (hc : c.isDigit) (hi : Agrees clauses t l v text P ((c :: cs).dropWhile Char.isDigit)) :
    Agrees clauses t l v text P (c :: cs) := by
  intro s before hs htext
  have hdigits : ∀ d ∈ (c :: cs).takeWhile Char.isDigit, d.isDigit := fun d => List.mem_takeWhile_imp
  have hkeep : ∀ d ∈ (c :: cs).takeWhile Char.isDigit, skips d ∨ d ≠ '\n' :=
    fun d hm => .inr fun h => absurd (h ▸ hdigits d hm) (by decide)
  have hsplit : text = before ++ (c :: cs).takeWhile Char.isDigit ++ (c :: cs).dropWhile Char.isDigit := by
    rw [List.append_assoc, List.takeWhile_append_dropWhile, htext]
  have hrest := hi s _ (ht.keep _ _ _ hs hkeep) hsplit
  have hafter : ∀ d ∈ ((c :: cs).dropWhile Char.isDigit).head?, ¬ d.isDigit :=
    fun d => Lexicon.not_of_mem_head?_dropWhile
  have hpieces := Lexicon.pieces_numeral_append (by simp [hc]) hdigits hafter
  rw [List.takeWhile_append_dropWhile] at hpieces
  rw [Text.utf8Length_append] at hrest
  rw [spans_of_run hc (hr.numeral c cs hc), tokens?_token ht hs htext (if_pos hc) hrest, hpieces,
    List.takeWhile_cons_of_pos hc, Lexicon.tokens_cons fun hb => Calculator.not_isDigit_of_isBlank hb hc,
    behind_append]

theorem agrees_sign (hb : ¬ isBlank c) (hd : ¬ c.isDigit) (hi : Agrees clauses t l v text P cs) :
    Agrees clauses t l v text P (c :: cs) := by
  intro s before hs htext
  have hl := hr.sign c cs hb hd
  have hname : l.name? c = l.sign c := if_neg hd
  rw [Lexicon.pieces_cons hd, Lexicon.tokens_cons hb]
  cases hsign : l.sign c
  case none =>
    rw [hsign] at hl hname
    rw [spans_of_none hl, tokens?, ht.position s before _ hs htext, Lexicon.classify, hname]
    rfl
  case some name =>
    rw [hsign] at hl hname
    have hnewline : c ≠ '\n' := fun h => hb (h ▸ rfl)
    have hrest := hi s _ (ht.keep _ _ [c] hs (by simp [hnewline])) (by simp [htext])
    rw [Text.utf8Length_append] at hrest
    rw [spans_of_single hl, tokens?_token ht hs htext hname hrest, behind_append]

theorem agrees : Agrees clauses t l v text P cs := by
  induction hn : cs.length using Nat.strong_induction_on generalizing cs
  case _ n hi =>
    cases cs
    case nil => exact agrees_nil ht
    case cons c cs =>
      have hlt : cs.length < n := by simp [← hn]
      have hdrop (cls : Char → Bool) (hc : cls c) : ((c :: cs).dropWhile cls).length < n := by
        rw [List.dropWhile_cons_of_pos hc]
        exact Nat.lt_of_le_of_lt (List.dropWhile_sublist _).length_le hlt
      by_cases hb : isBlank c
      case pos =>
        obtain ⟨hc, hl⟩ | ⟨rfl, hl⟩ := hr.blank c cs hb
        · exact agrees_blanks ht hr hc hl (hi _ (hdrop skips hc) rfl)
        · exact agrees_newline ht hl (hi _ hlt rfl)
      case neg =>
        by_cases hd : c.isDigit
        case pos => exact agrees_numeral ht hr hd (hi _ (hdrop Char.isDigit hd) rfl)
        case neg => exact agrees_sign ht hr hb hd (hi _ hlt rfl)

end

theorem tokenize?_of_implements {input : String} {P : σ → List Char → Prop} (hr : Implements clauses l skips)
    (ht : Tracks t l skips input.toList P) (hs : P s []) :
    tokenize? clauses t s v input = some (l.tokenize v input) :=
  agrees ht hr s [] hs (List.nil_append input.toList).symm

end Lexer
end CanonicalLR
