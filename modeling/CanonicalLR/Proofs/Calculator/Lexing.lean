import CanonicalLR.Proofs.Calculator.Grammar

namespace CanonicalLR

namespace Lexicon

variable {c : Char} {cs ds : List Char} {piece : List Char} {ps qs : List (List Char)}

theorem join_of_not_isDigit (hc : ¬ c.isDigit) : join c ps = [c] :: ps := by
  unfold join
  split
  case h_1 => rw [if_neg fun h => hc h.left]
  case h_2 => rfl

-- Nothing is joined to a piece that starts with another character.
theorem join_append {d : Char} (hd : ¬ d.isDigit) :
    join c (ps ++ [d] :: qs) = join c ps ++ [d] :: qs := by
  match ps with
  | [] => simp [join, hd]
  | [] :: ps => rfl
  | (e :: es) :: ps =>
    simp only [join, List.cons_append]
    split <;> rfl

theorem pieces_cons (hc : ¬ c.isDigit) : pieces (c :: cs) = [c] :: pieces cs := join_of_not_isDigit hc

theorem pieces_append (hc : ¬ c.isDigit) : pieces (cs ++ c :: ds) = pieces cs ++ [c] :: pieces ds := by
  induction cs
  case nil => exact pieces_cons hc
  case cons d cs hi => rw [List.cons_append, pieces, hi, join_append hc, pieces]

theorem pieces_numeral (hn : ds ≠ []) (hd : ∀ d ∈ ds, d.isDigit) : pieces ds = [ds] := by
  induction ds
  case nil => contradiction
  case cons d ds hi =>
    have ⟨hfirst, hds⟩ := List.forall_mem_cons.mp hd
    cases ds
    case nil => rfl
    case cons e es =>
      have ⟨he, _⟩ := List.forall_mem_cons.mp hds
      rw [pieces, hi (by simp) hds, join, if_pos ⟨hfirst, he⟩]

-- A piece is a numeral or a single other character.
inductive Piece : List Char → Prop
  | numeral {ds : List Char} (nonempty : ds ≠ []) (digits : ∀ d ∈ ds, d.isDigit) : Piece ds
  | single {c : Char} (other : ¬ c.isDigit) : Piece [c]

namespace Piece

theorem singleton (c : Char) : Piece [c] := by
  by_cases hc : c.isDigit
  case pos => exact .numeral (by simp) (by simpa using hc)
  case neg => exact .single hc

theorem cons {d : Char} (hc : c.isDigit) (hd : d.isDigit) (h : Piece (d :: ds)) : Piece (c :: d :: ds) := by
  cases h
  case numeral hds => exact .numeral (by simp) (List.forall_mem_cons.mpr ⟨hc, hds⟩)
  case single hn => exact absurd hd hn

theorem of_mem_join (h : ∀ p ∈ ps, Piece p) (hp : piece ∈ join c ps) : Piece piece := by
  unfold join at hp
  split at hp
  case h_1 d ds ps =>
    have ⟨hfirst, hps⟩ := List.forall_mem_cons.mp h
    split at hp
    case isTrue hdigits =>
      cases hp
      case head => exact hfirst.cons hdigits.left hdigits.right
      case tail hp => exact hps piece hp
    case isFalse =>
      cases hp
      case head => exact .singleton c
      case tail hp => exact h piece hp
  case h_2 =>
    cases hp
    case head => exact .singleton c
    case tail hp => exact h piece hp

theorem of_mem_pieces (h : piece ∈ pieces cs) : Piece piece := by
  induction cs generalizing piece
  case nil => contradiction
  case cons c cs hi => exact .of_mem_join (fun p => hi) h

end Piece
end Lexicon

namespace Calculator

open Lexicon

def signs : List (Char × Terminal) :=
  [('(', lparen), (')', rparen), ('+', plus), ('-', minus), ('*', star), ('/', slash)]

def vocabulary : Vocabulary := arithmetic.toVocabulary

theorem sign_cases (c : Char) :
    (∃ name k, Lexicon.arithmetic.sign c = some name ∧ terminal vocabulary name = .ok k ∧ (c, k) ∈ signs) ∨
      Lexicon.arithmetic.sign c = none ∧ ∀ k, (c, k) ∉ signs := by
  simp only [Lexicon.arithmetic]
  split
  case h_1 => exact .inl ⟨_, lparen, rfl, rfl, by decide⟩
  case h_2 => exact .inl ⟨_, rparen, rfl, rfl, by decide⟩
  case h_3 => exact .inl ⟨_, plus, rfl, rfl, by decide⟩
  case h_4 => exact .inl ⟨_, minus, rfl, rfl, by decide⟩
  case h_5 => exact .inl ⟨_, star, rfl, rfl, by decide⟩
  case h_6 => exact .inl ⟨_, slash, rfl, rfl, by decide⟩
  case h_7 => exact .inr ⟨rfl, by simp_all [signs]⟩

inductive Classified (c : Char) (p : Position) : Except LexicalError Terminal → Prop
  | number (digit : c.isDigit) : Classified c p (.ok num)
  | sign {k : Terminal} (other : ¬ c.isDigit) (mem : (c, k) ∈ signs) : Classified c p (.ok k)
  | unknown (other : ¬ c.isDigit) (notMem : ∀ k, (c, k) ∉ signs) : Classified c p (.error (.unexpected c p))

theorem classified (c : Char) (p : Position) :
    Classified c p (classify Lexicon.arithmetic vocabulary c p) := by
  by_cases hc : c.isDigit
  case pos =>
    have hn : classify Lexicon.arithmetic vocabulary c p = .ok num := by
      rw [classify, name?, if_pos hc]
      rfl
    exact hn ▸ .number hc
  case neg =>
    rw [classify, name?, if_neg hc]
    obtain ⟨name, k, hs, ht, hm⟩ | ⟨hs, hm⟩ := sign_cases c
    · rw [hs]
      change Classified c p (terminal vocabulary name)
      exact ht ▸ .sign hc hm
    · rw [hs]
      exact .unknown hc hm

-- The token of a piece, wherever it is.
inductive Spells : List Char → Token Terminal → Prop
  | numeral {ds : List Char} {t : Token Terminal} (nonempty : ds ≠ []) (digits : ∀ d ∈ ds, d.isDigit)
    (kind : t.kind = num) (lexeme : t.lexeme = .ofList ds) : Spells ds t
  | sign {c : Char} {t : Token Terminal} (mem : (c, t.kind) ∈ signs) : Spells [c] t

inductive Lexes : List (List Char) → List (Token Terminal) → Prop
  | nil : Lexes [] []
  | blank {b : Char} {ps : List (List Char)} {ts : List (Token Terminal)} (blank : isBlank b)
    (rec : Lexes ps ts) : Lexes ([b] :: ps) ts
  | token {piece : List Char} {ps : List (List Char)} {t : Token Terminal} {ts : List (Token Terminal)}
    (spells : Spells piece t) (rec : Lexes ps ts) : Lexes (piece :: ps) (t :: ts)

section

variable {b c : Char} {piece ds : List Char} {ps qs : List (List Char)} {k : Terminal} {t : Token Terminal}
variable {ts us : List (Token Terminal)}

-- The first character of a piece tells what the piece is.

theorem not_isDigit_of_isBlank (hb : isBlank b) : ¬ b.isDigit := by
  simp only [isBlank, Bool.or_eq_true, decide_eq_true_eq] at hb
  obtain (((rfl | rfl) | rfl) | rfl) | rfl := hb <;> decide

theorem not_isDigit_of_sign (hc : (c, k) ∈ signs) : ¬ c.isDigit := by
  have hall : ∀ s ∈ signs, ¬ s.1.isDigit := by decide
  exact hall _ hc

theorem not_isBlank_of_sign (hc : (c, k) ∈ signs) : ¬ isBlank c := by
  have hall : ∀ s ∈ signs, ¬ isBlank s.1 := by decide
  exact hall _ hc

theorem sign_unique {l : Terminal} (h : (c, k) ∈ signs) (h' : (c, l) ∈ signs) : k = l := by
  have hall : ∀ s ∈ signs, ∀ s' ∈ signs, s.1 = s'.1 → s.2 = s'.2 := by decide
  exact hall _ h _ h' rfl

-- The kind of a token tells which sign it is.
theorem sign_inj {d : Char} (h : (c, k) ∈ signs) (h' : (d, k) ∈ signs) : c = d := by
  have hall : ∀ s ∈ signs, ∀ s' ∈ signs, s.2 = s'.2 → s.1 = s'.1 := by decide
  exact hall _ h _ h' rfl

theorem ne_num_of_sign (h : (c, k) ∈ signs) : k ≠ num := by
  have hall : ∀ s ∈ signs, s.2 ≠ num := by decide
  exact hall _ h

theorem ne_eof_of_sign (h : (c, k) ∈ signs) : k ≠ .eof := by
  have hall : ∀ s ∈ signs, s.2 ≠ .eof := by decide
  exact hall _ h

namespace Spells

theorem not_isBlank (h : Spells [b] t) : ¬ isBlank b := by
  obtain ⟨_, hd, _, _⟩ | ⟨hm⟩ := h
  · exact fun hb => not_isDigit_of_isBlank hb (hd b (List.mem_singleton_self b))
  · exact not_isBlank_of_sign hm

theorem kind_eq (hc : (c, k) ∈ signs) (h : Spells [c] t) : t.kind = k := by
  obtain ⟨_, hd, _, _⟩ | ⟨hm⟩ := h
  · exact absurd (hd c (List.mem_singleton_self c)) (not_isDigit_of_sign hc)
  · exact sign_unique hm hc

theorem of_digits (hd : ∀ d ∈ ds, d.isDigit) (h : Spells ds t) : t.kind = num ∧ t.lexeme = .ofList ds := by
  obtain ⟨_, _, hk, hl⟩ | ⟨hm⟩ := h
  · exact ⟨hk, hl⟩
  · exact absurd (hd _ (List.mem_singleton_self _)) (not_isDigit_of_sign hm)

theorem eq_sign (hc : (c, t.kind) ∈ signs) (h : Spells piece t) : piece = [c] := by
  obtain ⟨_, _, hk, _⟩ | ⟨hm⟩ := h
  · exact absurd hk (ne_num_of_sign hc)
  · rw [sign_inj hm hc]

theorem digits_of_num (hk : t.kind = num) (h : Spells piece t) : piece ≠ [] ∧ ∀ d ∈ piece, d.isDigit := by
  obtain ⟨hn, hd, _, _⟩ | ⟨hm⟩ := h
  · exact ⟨hn, hd⟩
  · exact absurd hk (ne_num_of_sign hm)

theorem kind_ne_eof (h : Spells piece t) : t.kind ≠ .eof := by
  obtain ⟨_, _, hk, _⟩ | ⟨hm⟩ := h
  · rw [hk]
    decide
  · exact ne_eof_of_sign hm

end Spells

namespace Lexes

theorem of_blank (hb : isBlank b) (h : Lexes ([b] :: ps) ts) : Lexes ps ts := by
  obtain _ | ⟨_, hrec⟩ | ⟨hs, _⟩ := h
  · exact hrec
  · exact absurd hb hs.not_isBlank

theorem of_token (hp : ∀ b, piece = [b] → ¬ isBlank b) (h : Lexes (piece :: ps) ts) :
    ∃ t us, ts = t :: us ∧ Spells piece t ∧ Lexes ps us := by
  obtain _ | ⟨hb, _⟩ | ⟨hs, hrec⟩ := h
  · exact absurd hb (hp _ rfl)
  · exact ⟨_, _, rfl, hs, hrec⟩

theorem of_sign (hc : (c, k) ∈ signs) (h : Lexes ([c] :: ps) ts) :
    ∃ t us, ts = t :: us ∧ t.kind = k ∧ Lexes ps us := by
  have hp b (hb : [c] = [b]) : ¬ isBlank b := List.singleton_inj.mp hb ▸ not_isBlank_of_sign hc
  have ⟨t, us, hts, hs, hrec⟩ := h.of_token hp
  exact ⟨t, us, hts, hs.kind_eq hc, hrec⟩

theorem append (h : Lexes ps ts) (h' : Lexes qs us) : Lexes (ps ++ qs) (ts ++ us) := by
  induction h
  case nil => exact h'
  case blank hb _ hi => exact .blank hb hi
  case token hs _ hi => exact .token hs hi

theorem of_append_pieces (h : Lexes (ps ++ qs) ts) :
    ∃ us vs, ts = us ++ vs ∧ Lexes ps us ∧ Lexes qs vs := by
  generalize hall : ps ++ qs = all at h
  induction h generalizing ps
  case nil =>
    obtain ⟨rfl, rfl⟩ := List.append_eq_nil_iff.mp hall
    exact ⟨[], [], rfl, .nil, .nil⟩
  case blank hb hrec hi =>
    obtain ⟨rfl, rfl⟩ | ⟨ps, rfl, rfl⟩ := List.append_eq_cons_iff.mp hall
    · exact ⟨[], _, rfl, .nil, .blank hb hrec⟩
    · obtain ⟨us, vs, rfl, hus, hvs⟩ := hi rfl
      exact ⟨us, vs, rfl, .blank hb hus, hvs⟩
  case token t _ hs hrec hi =>
    obtain ⟨rfl, rfl⟩ | ⟨ps, rfl, rfl⟩ := List.append_eq_cons_iff.mp hall
    · exact ⟨[], _, rfl, .nil, .token hs hrec⟩
    · obtain ⟨us, vs, rfl, hus, hvs⟩ := hi rfl
      exact ⟨t :: us, vs, rfl, .token hs hus, hvs⟩

theorem of_append_tokens (h : Lexes ps (ts ++ us)) :
    ∃ qs rs, ps = qs ++ rs ∧ Lexes qs ts ∧ Lexes rs us := by
  generalize hall : ts ++ us = all at h
  induction h generalizing ts
  case nil =>
    obtain ⟨rfl, rfl⟩ := List.append_eq_nil_iff.mp hall
    exact ⟨[], [], rfl, .nil, .nil⟩
  case blank hb hrec hi =>
    obtain ⟨qs, rs, rfl, hqs, hrs⟩ := hi hall
    exact ⟨_ :: qs, rs, rfl, .blank hb hqs, hrs⟩
  case token piece _ _ _ hs hrec hi =>
    obtain ⟨rfl, rfl⟩ | ⟨ts, rfl, rfl⟩ := List.append_eq_cons_iff.mp hall
    · exact ⟨[], _, rfl, .nil, .token hs hrec⟩
    · obtain ⟨qs, rs, rfl, hqs, hrs⟩ := hi rfl
      exact ⟨piece :: qs, rs, rfl, .token hs hqs, hrs⟩

-- In front of the piece of the first token there are blanks.
theorem of_cons_token (h : Lexes ps (t :: ts)) :
    ∃ bs piece qs, ps = bs ++ piece :: qs ∧ Lexes bs [] ∧ Spells piece t ∧ Lexes qs ts := by
  generalize hall : t :: ts = all at h
  induction h
  case nil => contradiction
  case blank hb _ hi =>
    obtain ⟨bs, piece, qs, rfl, hbs, hs, hqs⟩ := hi hall
    exact ⟨_ :: bs, piece, qs, rfl, .blank hb hbs, hs, hqs⟩
  case token hs hrec _ =>
    cases hall
    exact ⟨[], _, _, rfl, .nil, hs, hrec⟩

end Lexes

theorem Lexes.kind_ne_eof (h : Lexes ps ts) : ∀ t ∈ ts, t.kind ≠ .eof := by
  induction h
  case nil => simp
  case blank hi => exact hi
  case token hs _ hi => exact List.forall_mem_cons.mpr ⟨hs.kind_ne_eof, hi⟩

-- Either all pieces are blanks or tokens, or there is a character that is part of neither.
def Cuts (ps : List (List Char)) : Except LexicalError (List (Token Terminal)) → Prop
  | .ok tokens => ∃ ts p, tokens = ts ++ [.endOfInput p] ∧ Lexes ps ts
  | .error e => (∃ c p, e = .unexpected c p) ∧ ∀ ts, ¬ Lexes ps ts

theorem Cuts.blank {r : Except LexicalError (List (Token Terminal))} (hb : isBlank b) (h : Cuts ps r) :
    Cuts ([b] :: ps) r := by
  cases r
  case error => exact ⟨h.left, fun ts hts => h.right ts (hts.of_blank hb)⟩
  case ok =>
    have ⟨ts, p, htokens, hts⟩ := h
    exact ⟨ts, p, htokens, .blank hb hts⟩

theorem spells_of_classify {cs : List Char} {p : Position} (hp : Piece (c :: cs))
    (h : classify Lexicon.arithmetic vocabulary c p = .ok k) :
    Spells (c :: cs) ⟨.ofList (c :: cs), k, p⟩ := by
  have hc := h ▸ classified c p
  cases hc
  case number hc =>
    cases hp
    case numeral hd => exact .numeral (by simp) hd rfl rfl
    case single hn => exact absurd hc hn
  case sign hn hm =>
    cases hp
    case numeral hd => exact absurd (hd c List.mem_cons_self) hn
    case single => exact .sign hm

theorem unexpected_of_classify {cs : List Char} {p : Position} {e : LexicalError}
    (h : classify Lexicon.arithmetic vocabulary c p = .error e) :
    e = .unexpected c p ∧ ∀ t, ¬ Spells (c :: cs) t := by
  have hc := h ▸ classified c p
  cases hc
  case unknown hn hm =>
    refine ⟨rfl, fun t ht => ?_⟩
    obtain ⟨_, hd, _, _⟩ | ⟨hs⟩ := ht
    · exact hn (hd c List.mem_cons_self)
    · exact hm _ hs

theorem cuts_tokens (h : ∀ piece ∈ ps, Piece piece) (p : Position) :
    Cuts ps (Lexicon.arithmetic.tokens vocabulary ps p) := by
  fun_induction Lexicon.arithmetic.tokens vocabulary ps p
  case case1 p => exact ⟨[], p, rfl, .nil⟩
  case case2 =>
    obtain ⟨hn, _⟩ := h [] List.mem_cons_self
    contradiction
  case case3 c cs ps p next hb hi =>
    have ⟨hpiece, hps⟩ := List.forall_mem_cons.mp h
    cases hpiece
    case numeral hd => exact absurd (hd c List.mem_cons_self) (not_isDigit_of_isBlank hb)
    case single => exact (hi hps).blank hb
  case case4 c cs ps p hb e hc =>
    obtain ⟨rfl, hs⟩ := unexpected_of_classify hc
    refine ⟨⟨c, p, rfl⟩, fun ts hts => ?_⟩
    have hblank b (he : c :: cs = [b]) : ¬ isBlank b := (List.cons.inj he).left ▸ hb
    have ⟨_, _, _, hspells, _⟩ := hts.of_token hblank
    exact hs _ hspells
  case case5 c cs ps p next hb k hc e he hi =>
    have ⟨_, hps⟩ := List.forall_mem_cons.mp h
    have ⟨hunexpected, hn⟩ := he ▸ hi hps
    refine ⟨hunexpected, fun ts hts => ?_⟩
    have hblank b (he : c :: cs = [b]) : ¬ isBlank b := (List.cons.inj he).left ▸ hb
    have ⟨_, us, _, _, hus⟩ := hts.of_token hblank
    exact hn us hus
  case case6 c cs ps p next hb k hc rest he hi =>
    have ⟨hpiece, hps⟩ := List.forall_mem_cons.mp h
    have ⟨ts, q, hrest, hts⟩ := he ▸ hi hps
    exact ⟨_ :: ts, q, by rw [hrest, List.cons_append], .token (spells_of_classify hpiece hc) hts⟩

end
end Calculator
end CanonicalLR
