import CanonicalLR.Lexicon
import CanonicalLR.Text.LineIndex

namespace CanonicalLR.Lexer

open Text (utf8Length)

-- A certain character, or a run of characters of a class.
inductive Pattern where
  | char (c : Char)
  | run (cls : Char → Bool)

namespace Pattern

-- How many characters at the front of a text the pattern matches at most, which is zero without a match.
def extent : Pattern → List Char → Nat
  | _, [] => 0
  | char c, d :: _ => if d = c then 1 else 0
  | run cls, cs => (cs.takeWhile cls).length

end Pattern

inductive Action where
  | skip
  -- Skip the end of a line.
  | newline
  -- Make a token of the named terminal.
  | token (name : String)

structure Clause where
  pattern : Pattern
  action : Action

-- The clause with the longest match, and the length of the match.
def longest (cs : List Char) : List Clause → Option (Action × Nat)
  | [] => none
  | r :: rs =>
    match longest cs rs with
    | none => if r.pattern.extent cs = 0 then none else some (r.action, r.pattern.extent cs)
    | some (action, n) => if n ≤ r.pattern.extent cs then some (r.action, r.pattern.extent cs) else some (action, n)

-- A part of a text, and the offset at which it starts.
inductive Span where
  | matched (action : Action) (start : Nat) (piece : List Char)
  | unmatched (start : Nat) (c : Char)

-- The spans of a text that starts at an offset.
def spans (clauses : List Clause) (offset : Nat) : List Char → List Span
  | [] => []
  | c :: cs =>
    match longest (c :: cs) clauses with
    | none => .unmatched offset c :: spans clauses (offset + c.utf8Size) cs
    | some (action, n) =>
      let piece := c :: cs.take (n - 1)
      .matched action offset piece :: spans clauses (offset + utf8Length piece) (cs.drop (n - 1))
termination_by cs => cs.length
decreasing_by
  all_goals
    simp only [List.length_cons, List.length_drop]
    omega

-- How a lexer knows the position of an offset: from what it has noted at the ends of the lines so far.
-- `none` stands for arithmetic or access out of range.
structure Tracker (σ : Type) where
  position? : σ → Nat → Option Position
  -- At the end of a line, with the offset behind it.
  newline : σ → Nat → σ

-- The tokens of some spans, up to the first span that has none. At the end of the input its position is asked for.
def tokens? {σ : Type} (t : Tracker σ) (v : Vocabulary) (stop : Nat) :
    σ → List Span → Option (Except LexicalError (List (Token Terminal)))
  | s, [] => (t.position? s stop).map fun p => .ok [.endOfInput p]
  | s, .unmatched start c :: _ => (t.position? s start).map fun p => .error (.unexpected c p)
  | s, .matched .skip _ _ :: spans => tokens? t v stop s spans
  | s, .matched .newline start piece :: spans => tokens? t v stop (t.newline s (start + utf8Length piece)) spans
  | s, .matched (.token name) start piece :: spans =>
    match t.position? s start with
    | none => none
    | some p =>
      match Lexicon.terminal v name with
      | .error e => some (.error e)
      | .ok kind => (tokens? t v stop s spans).map (·.map (⟨.ofList piece, kind, p⟩ :: ·))

def tokenize? {σ : Type} (clauses : List Clause) (t : Tracker σ) (s : σ) (v : Vocabulary) (input : String) :
    Option (Except LexicalError (List (Token Terminal))) :=
  tokens? t v (utf8Length input.toList) s (spans clauses 0 input.toList)

end CanonicalLR.Lexer
