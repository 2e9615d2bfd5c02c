import CanonicalLR.Calculator.Lexer
import CanonicalLR.Proofs.Lexer.LineIndex
import CanonicalLR.Proofs.Lexer.Pieces

namespace CanonicalLR

theorem Vocabulary.terminalName_eq {v : Vocabulary} {name : String} {t : Terminal} (h : v.terminal? name = some t) :
    v.terminalName t = name := by
  obtain ⟨i, hi, rfl⟩ := Option.map_eq_some_iff.mp h
  have ⟨hlt, hname, _⟩ := List.findIdx?_eq_some_iff_getElem.mp hi
  simpa [terminalName, hlt] using hname

namespace Calculator.Lexer

open CanonicalLR.Lexer
open Lexicon (isBlank)
open Text (utf8Length)

variable {v : Vocabulary} {c : Char} {cs before after text : List Char} {input : String}

theorem advance_after : (Position.after before).advance Lexicon.arithmetic.width c = .after (before ++ [c]) :=
  Position.after_concat.symm

theorem behind_arithmetic : behind Lexicon.arithmetic before = .after before := by
  induction before using List.reverseRecOn
  case nil => rfl
  case append_singleton cs c hi => rw [behind_append, hi, List.foldl_cons, List.foldl_nil, advance_after]

theorem foldl_advance {ds : List Char} :
    ds.foldl (Position.advance Lexicon.arithmetic.width) (.after before) = .after (before ++ ds) := by
  rw [← behind_arithmetic, ← behind_append, behind_arithmetic]

theorem implements : Implements clauses Lexicon.arithmetic isBlank where
  skips_blank _ h := h
  blank c cs h := by
    refine .inl ⟨h, longest_run ?_⟩
    simp only [isBlank, Bool.or_eq_true, decide_eq_true_eq] at h
    obtain (((rfl | rfl) | rfl) | rfl) | rfl := h <;> rfl
  numeral c cs h := by
    have hall : ∀ d ∈ "()+-*/ \t\r\n\x0c".toList, ¬ d.isDigit := by simp
    have hc : c ∉ "()+-*/ \t\r\n\x0c".toList := fun hm => hall c hm h
    exact longest_run (by simp_all [clauses, Pattern.starts, isBlank])
  sign c cs hb hd := by
    simp only [Lexicon.arithmetic]
    split
    case h_7 => exact longest_eq_none.mpr (by simp_all [clauses, Pattern.extent_eq_zero, Pattern.starts])
    all_goals exact longest_char (by rfl)

theorem separate : Separate clauses := by
  have h c (hc : isBlank c) : c ∉ "()+-*/".toList ∧ ¬ c.isDigit := by
    refine ⟨fun hm => ?_, not_isDigit_of_isBlank hc⟩
    have hall : ∀ d ∈ "()+-*/".toList, ¬ isBlank d := by simp [isBlank]
    exact hall c hm hc
  simp_all [Separate, clauses, Pattern.starts]

theorem tracks : Tracks (tracker text) Lexicon.arithmetic isBlank text fun _ _ => True where
  position s before after _ h := by
    rw [tracker, h, behind_arithmetic]
    exact LineIndex.position?_eq
  keep := by simp
  newline := by simp

theorem tokenize?_eq : tokenize? v input = some (Lexicon.arithmetic.tokenize v input) :=
  tokenize?_of_implements implements tracks trivial

-- The signs of arithmetic expressions, and the names of their terminals.
def punctuation : List (Char × String) :=
  [('(', "LPAREN"), (')', "RPAREN"), ('+', "PLUS"), ('-', "MINUS"), ('*', "STAR"), ('/', "SLASH")]

-- A character begins a lexeme of the named terminal.
inductive Begins (c : Char) : String → Prop
  | digit (digit : c.isDigit) : Begins c "NUM"
  | sign {name : String} (mem : (c, name) ∈ punctuation) : Begins c name

-- Nothing stops the lexer at a blank, and at the beginning of a lexeme whose terminal exists.
def Accepts (v : Vocabulary) (c : Char) : Prop :=
  isBlank c ∨ ∃ name k, Begins c name ∧ v.terminal? name = some k

inductive Rejects (v : Vocabulary) (c : Char) (p : Position) : LexicalError → Prop
  | unexpected (visible : ¬ isBlank c) (foreign : ∀ name, ¬ Begins c name) : Rejects v c p (.unexpected c p)
  | unknownTerminal {name : String} (begins : Begins c name) (missing : v.terminal? name = none) :
    Rejects v c p (.unknownTerminal name)

-- A token between two parts of a text is a sign, or a numeral that could not be longer. It has the terminal that
-- bears the name of the lexeme.
inductive Spelled (v : Vocabulary) (before after : List Char) (t : Token Terminal) : Prop
  | sign {c : Char} {name : String} (lexeme : t.lexeme.toList = [c]) (mem : (c, name) ∈ punctuation)
    (kind : v.terminal? name = some t.kind)
  | numeral (nonempty : t.lexeme.toList ≠ []) (digits : ∀ d ∈ t.lexeme.toList, d.isDigit)
    (behind : ∀ d ∈ before.getLast?, ¬ d.isDigit) (ahead : ∀ d ∈ after.head?, ¬ d.isDigit)
    (kind : v.terminal? "NUM" = some t.kind)

-- Tokens cover a text behind another text if all of it but blanks is part of a token.
inductive Covers (v : Vocabulary) : List Char → List Char → List (Token Terminal) → Prop
  | nil {before : List Char} : Covers v before [] []
  | blank {before after : List Char} {c : Char} {ts : List (Token Terminal)} (blank : isBlank c)
    (rec : Covers v (before ++ [c]) after ts) : Covers v before (c :: after) ts
  | token {before after : List Char} {t : Token Terminal} {ts : List (Token Terminal)}
    (position : t.position = .after before) (spelled : Spelled v before after t)
    (rec : Covers v (before ++ t.lexeme.toList) after ts) : Covers v before (t.lexeme.toList ++ after) (t :: ts)

section

variable {d : Char} {name : String} {k : Terminal} {p : Position} {e : LexicalError} {t : Token Terminal}
variable {ds : List Char} {ps : List (List Char)} {ts us : List (Token Terminal)}

theorem sign_eq_some : Lexicon.arithmetic.sign c = some name ↔ (c, name) ∈ punctuation := by
  simp only [Lexicon.arithmetic]
  split <;> simp_all [punctuation, eq_comm]

theorem not_isDigit_of_mem (h : (c, name) ∈ punctuation) : ¬ c.isDigit := by
  have hall : ∀ s ∈ punctuation, ¬ s.1.isDigit := by decide
  exact hall _ h

theorem not_isBlank_of_mem (h : (c, name) ∈ punctuation) : ¬ isBlank c := by
  have hall : ∀ s ∈ punctuation, ¬ isBlank s.1 := by decide
  exact hall _ h

theorem name?_eq_some : Lexicon.arithmetic.name? c = some name ↔ Begins c name := by
  rw [Lexicon.name?]
  split
  case isTrue hd =>
    constructor
    case mp =>
      rintro ⟨⟩
      exact .digit hd
    case mpr =>
      rintro (_ | hm)
      · rfl
      · exact absurd hd (not_isDigit_of_mem hm)
  case isFalse hd =>
    rw [sign_eq_some]
    constructor
    case mp => exact .sign
    case mpr =>
      rintro (hc | hm)
      · exact absurd hc hd
      · exact hm

theorem Begins.unique {name' : String} (h : Begins c name) (h' : Begins c name') : name = name' :=
  Option.some.inj ((name?_eq_some.mpr h).symm.trans (name?_eq_some.mpr h'))

theorem Begins.not_isBlank (h : Begins c name) : ¬ isBlank c := by
  obtain hd | hm := h
  · exact fun hb => not_isDigit_of_isBlank hb hd
  · exact not_isBlank_of_mem hm

theorem classify_eq_ok : Lexicon.classify .arithmetic v c p = .ok k ↔
    ∃ name, Begins c name ∧ v.terminal? name = some k := by
  simp only [← name?_eq_some, Lexicon.classify, Lexicon.terminal]
  split
  case h_1 name hn => cases ht : v.terminal? name <;> simp [hn, ht]
  case h_2 hn => simp [hn]

theorem classify_eq_error (hc : ¬ isBlank c) :
    Lexicon.classify .arithmetic v c p = .error e ↔ Rejects v c p e := by
  rw [Lexicon.classify]
  split
  case h_1 name hn =>
    have hb := name?_eq_some.mp hn
    rw [Lexicon.terminal]
    constructor
    case mp =>
      split
      case h_1 => rintro ⟨⟩
      case h_2 ht =>
        rintro ⟨⟩
        exact .unknownTerminal hb ht
    case mpr =>
      rintro (⟨_, hf⟩ | ⟨hb', ht⟩)
      · exact absurd hb (hf name)
      · rw [hb.unique hb', ht]
  case h_2 hn =>
    have hf name (hb : Begins c name) : False := by simp [name?_eq_some.mpr hb] at hn
    constructor
    case mp =>
      rintro ⟨⟩
      exact .unexpected hc hf
    case mpr =>
      rintro (_ | ⟨hb, _⟩)
      · rfl
      · exact (hf _ hb).elim

theorem Rejects.not_accepts (h : Rejects v c p e) : ¬ Accepts v c := by
  rintro (hc | ⟨name, k, hb, hk⟩)
  · obtain hv | ⟨hb, _⟩ := h
    · exact hv hc
    · exact hb.not_isBlank hc
  · obtain ⟨_, hf⟩ | ⟨hb', hn⟩ := h
    · exact hf name hb
    · simp [hb.unique hb', hn] at hk

-- Some text is read, behind other text, up to a character that is rejected.
def Fails (v : Vocabulary) (before after : List Char) (e : LexicalError) : Prop :=
  ∃ read c rest, after = read ++ c :: rest ∧ (∀ d ∈ read, Accepts v d) ∧ Rejects v c (.after (before ++ read)) e

theorem not_fails_nil : ¬ Fails v before [] e := by
  rintro ⟨read, c, rest, h, _⟩
  simp at h

theorem fails_cons (hc : Accepts v c) : Fails v before (c :: cs) e ↔ Fails v (before ++ [c]) cs e := by
  constructor
  case mp =>
    rintro ⟨read, d, rest, h, hread, hd⟩
    obtain ⟨rfl, h⟩ | ⟨read, rfl, rfl⟩ := List.cons_eq_append_iff.mp h
    · cases h
      exact absurd hc hd.not_accepts
    · have ⟨_, hread⟩ := List.forall_mem_cons.mp hread
      exact ⟨read, d, rest, rfl, hread, by rwa [List.append_assoc]⟩
  case mpr =>
    rintro ⟨read, d, rest, rfl, hread, hd⟩
    refine ⟨c :: read, d, rest, rfl, List.forall_mem_cons.mpr ⟨hc, hread⟩, ?_⟩
    rwa [List.append_assoc] at hd

theorem fails_append (h : ∀ d ∈ ds, Accepts v d) : Fails v before (ds ++ cs) e ↔ Fails v (before ++ ds) cs e := by
  induction ds generalizing before
  case nil => rw [List.append_nil, List.nil_append]
  case cons d ds hi =>
    have ⟨hd, hds⟩ := List.forall_mem_cons.mp h
    rw [List.cons_append, fails_cons hd, hi hds, List.append_assoc, List.singleton_append]

theorem fails_of_not_accepts (hc : ¬ Accepts v c) :
    Fails v before (c :: cs) e ↔ Rejects v c (.after before) e := by
  constructor
  case mp =>
    rintro ⟨read, d, rest, h, hread, hd⟩
    obtain ⟨rfl, h⟩ | ⟨read, rfl, rfl⟩ := List.cons_eq_append_iff.mp h
    · cases h
      rwa [List.append_nil] at hd
    · exact absurd (hread c List.mem_cons_self) hc
  case mpr =>
    intro h
    exact ⟨[], c, cs, rfl, nofun, by rwa [List.append_nil]⟩

-- A piece is as good as its first character.
theorem tokens_eq_error_piece (hc : ¬ isBlank c) (hds : Accepts v c → ∀ d ∈ ds, Accepts v d)
    (hi : Lexicon.tokens .arithmetic v ps (.after (before ++ c :: ds)) = .error e ↔
      Fails v (before ++ c :: ds) cs e) :
    Lexicon.tokens .arithmetic v ((c :: ds) :: ps) (.after before) = .error e ↔
      Fails v before (c :: ds ++ cs) e := by
  rw [Lexicon.tokens_cons_eq_error hc, foldl_advance, hi, classify_eq_error hc]
  by_cases ha : Accepts v c
  case pos =>
    rw [fails_append (List.forall_mem_cons.mpr ⟨ha, hds ha⟩)]
    constructor
    case mp =>
      rintro (hr | ⟨_, _, h⟩)
      · exact absurd ha hr.not_accepts
      · exact h
    case mpr =>
      intro h
      obtain hb | ⟨name, k, hb, hk⟩ := ha
      · exact absurd hb hc
      · exact .inr ⟨k, classify_eq_ok.mpr ⟨name, hb, hk⟩, h⟩
  case neg =>
    rw [List.cons_append, fails_of_not_accepts ha]
    constructor
    case mp =>
      rintro (hr | ⟨k, hk, _⟩)
      · exact hr
      · have ⟨name, hk⟩ := classify_eq_ok.mp hk
        exact absurd (.inr ⟨name, k, hk⟩) ha
    case mpr => exact .inl

theorem accepts_of_digits (hc : c.isDigit) (hd : d.isDigit) (h : Accepts v c) : Accepts v d := by
  obtain hb | ⟨name, k, hb, hk⟩ := h
  · exact absurd hc (not_isDigit_of_isBlank hb)
  · exact .inr ⟨"NUM", k, .digit hd, hb.unique (.digit hc) ▸ hk⟩

theorem tokens_eq_error : Lexicon.tokens .arithmetic v (Lexicon.pieces cs) (.after before) = .error e ↔
    Fails v before cs e := by
  induction cs using Lexicon.text_induction generalizing before
  case nil => exact iff_of_false nofun not_fails_nil
  case numeral ds cs hn hds hcs hi =>
    obtain ⟨d, ds, rfl⟩ := List.exists_cons_of_ne_nil hn
    have ⟨hd, htail⟩ := List.forall_mem_cons.mp hds
    rw [Lexicon.pieces_numeral_append hn hds hcs]
    exact tokens_eq_error_piece (fun hb => not_isDigit_of_isBlank hb hd)
      (fun ha d hm => accepts_of_digits hd (htail d hm) ha) hi
  case single c cs hd hi =>
    by_cases hb : isBlank c
    case pos =>
      rw [Lexicon.tokens_blank hb, advance_after, hi, fails_cons (.inl hb)]
    case neg =>
      rw [Lexicon.pieces_cons hd]
      exact tokens_eq_error_piece hb (fun _ => nofun) hi

theorem tokenize_eq_error : Lexicon.tokenize .arithmetic v input = .error e ↔ Fails v [] input.toList e := by
  rw [Lexicon.tokenize, ← Position.after_nil, tokens_eq_error]

-- No numeral reaches from one text into the next one.
def Apart (before after : List Char) : Prop := ∀ d ∈ before.getLast?, d.isDigit → ∀ c ∈ after.head?, ¬ c.isDigit

theorem Spelled.covers (hs : Spelled v before after ⟨.ofList ds, k, .after before⟩)
    (h : Covers v (before ++ ds) after us) :
    Covers v before (ds ++ after) (⟨.ofList ds, k, .after before⟩ :: us) := by
  have hl : (String.ofList ds).toList = ds := String.toList_ofList
  have hc := Covers.token rfl hs (hl.symm ▸ h)
  rwa [hl] at hc

theorem tokens_eq_ok_piece (hc : ¬ isBlank c)
    (h : Lexicon.tokens .arithmetic v ((c :: ds) :: ps) (.after before) = .ok ts) :
    ∃ name k rest, Begins c name ∧ v.terminal? name = some k ∧
      Lexicon.tokens .arithmetic v ps (.after (before ++ c :: ds)) = .ok rest ∧
      ts = ⟨.ofList (c :: ds), k, .after before⟩ :: rest := by
  rw [Lexicon.tokens_cons hc, bind_eq_ok, foldl_advance] at h
  obtain ⟨k, hk, h⟩ := h
  obtain ⟨rest, hrest, rfl⟩ := map_eq_ok.mp h
  obtain ⟨name, hb, hk⟩ := classify_eq_ok.mp hk
  exact ⟨name, k, rest, hb, hk, hrest, rfl⟩

theorem covers_tokens (ha : Apart before cs)
    (h : Lexicon.tokens .arithmetic v (Lexicon.pieces cs) (.after before) = .ok ts) :
    ∃ us, ts = us ++ [.endOfInput (.after (before ++ cs))] ∧ Covers v before cs us := by
  induction cs using Lexicon.text_induction generalizing before ts
  case nil =>
    cases h
    exact ⟨[], by simp, .nil⟩
  case numeral ds cs hn hds hcs hi =>
    obtain ⟨d, ds, rfl⟩ := List.exists_cons_of_ne_nil hn
    have hd := hds d List.mem_cons_self
    rw [Lexicon.pieces_numeral_append hn hds hcs] at h
    obtain ⟨name, k, ts, hb, hk, hts, rfl⟩ := tokens_eq_ok_piece (fun hb => not_isDigit_of_isBlank hb hd) h
    obtain ⟨us, rfl, hus⟩ := hi (fun _ _ _ => hcs) hts
    have hname : v.terminal? "NUM" = some k := hb.unique (.digit hd) ▸ hk
    refine ⟨_ :: us, by simp, Spelled.covers (.numeral ?_ ?_ ?_ hcs hname) hus⟩
    case refine_1 => simp
    case refine_2 => simpa using hds
    case refine_3 => exact fun c hc hdigit => ha c hc hdigit d rfl hd
  case single c cs hd hi =>
    have hnext : Apart (before ++ [c]) cs := by
      intro d hd' hdigit
      simp only [List.getLast?_append, List.getLast?_singleton, Option.some_or, Option.mem_some_iff] at hd'
      exact absurd (hd' ▸ hdigit) hd
    by_cases hb : isBlank c
    case pos =>
      rw [Lexicon.tokens_blank hb, advance_after] at h
      have ⟨us, hts, hus⟩ := hi hnext h
      exact ⟨us, by simpa using hts, .blank hb hus⟩
    case neg =>
      rw [Lexicon.pieces_cons hd] at h
      obtain ⟨name, k, ts, hc | hm, hk, hts, rfl⟩ := tokens_eq_ok_piece hb h
      · exact absurd hc hd
      · obtain ⟨us, rfl, hus⟩ := hi hnext hts
        have hs : Spelled v before cs ⟨.ofList [c], k, .after before⟩ := .sign (by simp) hm hk
        exact ⟨_ :: us, by simp, hs.covers hus⟩

theorem covers_tokenize (h : Lexicon.tokenize .arithmetic v input = .ok ts) :
    ∃ us, ts = us ++ [.endOfInput (.after input.toList)] ∧ Covers v [] input.toList us := by
  rw [Lexicon.tokenize, ← Position.after_nil] at h
  have ha : Apart [] input.toList := fun _ hd => nomatch hd
  exact covers_tokens ha h

namespace Spelled

theorem not_isBlank (h : Spelled v before after t) : ∀ c ∈ t.lexeme.toList, ¬ isBlank c := by
  obtain ⟨hl, hm, _⟩ | ⟨_, hd, _⟩ := h
  · rw [hl]
    simpa using not_isBlank_of_mem hm
  · exact fun c hc hb => not_isDigit_of_isBlank hb (hd c hc)

theorem filter_lexeme (h : Spelled v before after t) :
    t.lexeme.toList.filter (!isBlank ·) = t.lexeme.toList := by
  simpa using h.not_isBlank

theorem lexeme_ne (h : Spelled v before after t) : t.lexeme ≠ "$" := by
  intro hl
  have hdollar : '$' ∈ t.lexeme.toList := by
    rw [hl]
    decide
  obtain ⟨hc, hm, _⟩ | ⟨_, hd, _⟩ := h
  · have hall : ∀ s ∈ punctuation, s.1 ≠ '$' := by decide
    rw [hc, List.mem_singleton] at hdollar
    exact hall _ hm hdollar.symm
  · exact absurd (hd '$' hdollar) (by decide)

theorem kind_ne_eof (hv : v.terminalName .eof = "$eof") (h : Spelled v before after t) : t.kind ≠ .eof := by
  intro hk
  obtain ⟨_, hm, hkind⟩ | ⟨_, _, _, _, hkind⟩ := h
  · have hall : ∀ s ∈ punctuation, s.2 ≠ "$eof" := by decide
    exact hall _ hm (hv ▸ hk ▸ Vocabulary.terminalName_eq hkind).symm
  · have hname := Vocabulary.terminalName_eq hkind
    rw [hk, hv] at hname
    contradiction

end Spelled

namespace Covers

theorem lossless (h : Covers v before after us) :
    us.flatMap (·.lexeme.toList) = after.filter (!isBlank ·) := by
  induction h
  case nil => rfl
  case blank hb _ hi => rw [hi, List.filter_cons_of_neg (by simpa using hb)]
  case token hs _ hi => rw [List.flatMap_cons, hi, List.filter_append, hs.filter_lexeme]

-- Every token has its place behind the earlier tokens.
theorem placed {ls rs : List (Token Terminal)} (h : Covers v before after (ls ++ t :: rs)) :
    ∃ read rest, after = read ++ t.lexeme.toList ++ rest ∧
      ls.flatMap (·.lexeme.toList) = read.filter (!isBlank ·) ∧
      t.position = .after (before ++ read) ∧ Spelled v (before ++ read) rest t := by
  generalize hall : ls ++ t :: rs = all at h
  induction h generalizing ls
  case nil => simp at hall
  case blank c _ hb _ hi =>
    obtain ⟨read, rest, rfl, hread, hp, hs⟩ := hi hall
    rw [List.append_assoc, List.singleton_append] at hp hs
    exact ⟨c :: read, rest, rfl, by rw [hread, List.filter_cons_of_neg (by simpa using hb)], hp, hs⟩
  case token u us hp hs hrec hi =>
    obtain ⟨rfl, h⟩ | ⟨ls, rfl, rfl⟩ := List.append_eq_cons_iff.mp hall
    · cases h
      exact ⟨[], _, rfl, rfl, by rwa [List.append_nil], by rwa [List.append_nil]⟩
    · obtain ⟨read, rest, rfl, hread, hp, hs'⟩ := hi rfl
      rw [List.append_assoc] at hp hs'
      refine ⟨u.lexeme.toList ++ read, rest, by simp, ?_, hp, hs'⟩
      rw [List.flatMap_cons, hread, List.filter_append, hs.filter_lexeme]

end Covers

-- Tokens render a text without loss: the lexemes are all of it but blanks, and each has its place and terminal.
structure Renders (v : Vocabulary) (text : List Char) (ts : List (Token Terminal)) : Prop where
  lossless : ts.flatMap (·.lexeme.toList) = text.filter (!isBlank ·)
  placed : ∀ ls t rs, ts = ls ++ t :: rs → ∃ before after,
    text = before ++ t.lexeme.toList ++ after ∧
    ls.flatMap (·.lexeme.toList) = before.filter (!isBlank ·) ∧
    t.position = .after before ∧ Spelled v before after t

theorem Covers.renders (h : Covers v [] cs us) : Renders v cs us where
  lossless := h.lossless
  placed _ _ _ hts := (hts ▸ h).placed

theorem Renders.spelled (h : Renders v cs us) (ht : t ∈ us) : ∃ before after, Spelled v before after t := by
  have ⟨ls, rs, hts⟩ := List.append_of_mem ht
  have ⟨before, after, _, _, _, hs⟩ := h.placed ls t rs hts
  exact ⟨before, after, hs⟩

end

-- The lexer never asks for a position out of range or within a character. It succeeds if it accepts all characters,
-- and then its tokens render the text in front of a single end of input. Otherwise the first character that it
-- rejects is reported. It does not matter how the longest matches are found.
theorem tokenize?_exact (v : Vocabulary) (input : String) :
    ∃ r, tokenize? v input = some r ∧ Calculator.tokenize v input = r.mapError .lexical ∧
      (∀ spans, Scans clauses 0 input.toList spans →
        tokens? (tracker input.toList) v (utf8Length input.toList) () spans = some r) ∧
      (∀ ts, r = .ok ts → ∃ us, ts = us ++ [.endOfInput (.after input.toList)] ∧
        Renders v input.toList us ∧
        ∀ t ∈ us, t.lexeme ≠ "$" ∧ (v.terminalName .eof = "$eof" → t.kind ≠ .eof)) ∧
      (∀ e, r = .error e ↔ ∃ before c after, input.toList = before ++ c :: after ∧
        (∀ d ∈ before, Accepts v d) ∧ Rejects v c (.after before) e) ∧
      ∀ before after, input.toList = before ++ after →
        (LineIndex.ofText input.toList).position? input.toList (utf8Length before) = some (.after before) := by
  refine ⟨_, tokenize?_eq, rfl, fun spans h => ?scans, fun ts h => ?ok, fun e => tokenize_eq_error,
    fun before after h => ?position⟩
  case scans => exact (tokens?_of_scans separate h _ _ v).trans tokenize?_eq
  case ok =>
    have ⟨us, hts, hus⟩ := covers_tokenize h
    refine ⟨us, hts, hus.renders, fun t ht => ?_⟩
    have ⟨_, _, hs⟩ := hus.renders.spelled ht
    exact ⟨hs.lexeme_ne, fun hv => hs.kind_ne_eof hv⟩
  case position =>
    rw [h]
    exact LineIndex.position?_eq

end Calculator.Lexer
end CanonicalLR
