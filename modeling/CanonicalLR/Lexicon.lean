import CanonicalLR.Grammar.Vocabulary
import CanonicalLR.Parser.Token

namespace CanonicalLR

-- A text is cut into runs of digits, which are as long as possible, and single other characters.
structure Lexicon where
  -- The names of the single characters that are lexemes.
  sign : Char → Option String
  -- The number of columns that a character takes up.
  width : Char → Nat

inductive LexicalError where
  | unexpected (c : Char) (position : Position)
  | unknownTerminal (name : String)
  deriving DecidableEq

namespace Lexicon

def isBlank (c : Char) : Bool :=
  c = ' ' || c = '\t' || c = '\r' || c = '\n' || c = '\x0c'

-- Join a character to the first one of some pieces if both are digits.
def join (c : Char) : List (List Char) → List (List Char)
  | (d :: ds) :: ps => if c.isDigit ∧ d.isDigit then (c :: d :: ds) :: ps else [c] :: (d :: ds) :: ps
  | ps => [c] :: ps

def pieces : List Char → List (List Char)
  | [] => []
  | c :: cs => join c (pieces cs)

theorem flatten_join {c : Char} {ps : List (List Char)} : (join c ps).flatten = c :: ps.flatten := by
  unfold join
  split
  case h_1 => split <;> simp
  case h_2 => simp

-- Nothing is lost.
@[simp]
theorem flatten_pieces {cs : List Char} : (pieces cs).flatten = cs := by
  induction cs <;> simp_all [pieces, flatten_join]

def name? (l : Lexicon) (c : Char) : Option String :=
  if c.isDigit then some "NUM" else l.sign c

def terminal (v : Vocabulary) (name : String) : Except LexicalError Terminal :=
  match v.terminal? name with
  | some t => .ok t
  | none => .error (.unknownTerminal name)

-- The first character of a piece tells what it is.
def classify (l : Lexicon) (v : Vocabulary) (c : Char) (p : Position) : Except LexicalError Terminal :=
  match l.name? c with
  | some name => terminal v name
  | none => .error (.unexpected c p)

-- The tokens of some pieces, the first of which has the given position.
def tokens (l : Lexicon) (v : Vocabulary) :
    List (List Char) → Position → Except LexicalError (List (Token Terminal))
  | [], p => .ok [.endOfInput p]
  | [] :: ps, p => tokens l v ps p
  | (c :: cs) :: ps, p =>
    let next := (c :: cs).foldl (Position.advance l.width) p
    if isBlank c then
      tokens l v ps next
    else
      match classify l v c p with
      | .error e => .error e
      | .ok kind =>
        match tokens l v ps next with
        | .error e => .error e
        | .ok rest => .ok (⟨.ofList (c :: cs), kind, p⟩ :: rest)

def tokenize (l : Lexicon) (v : Vocabulary) (input : String) :
    Except LexicalError (List (Token Terminal)) :=
  l.tokens v (pieces input.toList) .origin

-- The signs of arithmetic expressions.
def arithmetic : Lexicon where
  width _ := 1
  sign
    | '(' => some "LPAREN"
    | ')' => some "RPAREN"
    | '+' => some "PLUS"
    | '-' => some "MINUS"
    | '*' => some "STAR"
    | '/' => some "SLASH"
    | _ => none

end Lexicon
end CanonicalLR
