import CanonicalLR.Lexicon
import CanonicalLR.Text.Lowercase
import CanonicalLR.Text.Quoted

namespace CanonicalLR.Example

-- The lexemes of brackets and arithmetic expressions. Columns count bytes.
def lexicon : Lexicon where
  width := Char.utf8Size
  sign
    | 'a' => some "A"
    | c => Lexicon.arithmetic.sign c

def lexicalMessage : LexicalError → String
  | .unexpected c p =>
    "unexpected character " ++ Text.quoted (String.singleton c) ++ " at " ++
      toString p.row ++ ":" ++ toString p.column
  | .unknownTerminal name => "unknown terminal `" ++ name ++ "'"

def scan (v : Vocabulary) (input : String) : Except LexicalError (List (Token Terminal)) :=
  lexicon.tokenize v input

-- The words between single spaces. Between two spaces in a row there is an empty word.
def split : List Char → List (List Char)
  | [] => [[]]
  | c :: cs =>
    match split cs with
    | [] => [[c]]
    | w :: ws => if c = ' ' then [] :: w :: ws else (c :: w) :: ws

-- Each word is the name of a terminal, and its lexeme is the lowercase form of the name.
def wordTokens (v : Vocabulary) : List (List Char) → Nat → Except LexicalError (List (Token Terminal))
  | [], column => .ok [.endOfInput ⟨1, column⟩]
  | w :: ws, column =>
    let next := column + w.length + 1
    if w.isEmpty then
      wordTokens v ws next
    else
      match Lexicon.terminal v (.ofList w) with
      | .error e => .error e
      | .ok kind =>
        match wordTokens v ws next with
        | .error e => .error e
        | .ok rest => .ok (⟨Text.lowercase (.ofList w), kind, ⟨1, column⟩⟩ :: rest)

def words (v : Vocabulary) (input : String) : Except LexicalError (List (Token Terminal)) :=
  wordTokens v (split input.toList) 1

end CanonicalLR.Example
