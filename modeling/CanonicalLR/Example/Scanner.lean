import CanonicalLR.Lexer

namespace CanonicalLR.Example.Scanner

open CanonicalLR.Lexer (Clause Tracker)

-- The blanks within a line.
def isSpace (c : Char) : Bool := c = ' ' || c = '\t' || c = '\r' || c = '\x0c'

def clauses : List Clause := [
  ⟨.run isSpace, .skip⟩, ⟨.char '\n', .newline⟩,
  ⟨.char '(', .token "LPAREN"⟩, ⟨.char ')', .token "RPAREN"⟩, ⟨.char '+', .token "PLUS"⟩,
  ⟨.char '-', .token "MINUS"⟩, ⟨.char '*', .token "STAR"⟩, ⟨.char '/', .token "SLASH"⟩,
  ⟨.char 'a', .token "A"⟩, ⟨.run Char.isDigit, .token "NUM"⟩]

-- The number of newlines so far, and the offset at which the current line starts.
structure Line where
  newlines : Nat
  start : Nat

def tracker : Tracker Line where
  position? l offset := if l.start ≤ offset then some ⟨l.newlines + 1, offset - l.start + 1⟩ else none
  newline l offset := ⟨l.newlines + 1, offset⟩

def scan? (v : Vocabulary) (input : String) : Option (Except LexicalError (List (Token Terminal))) :=
  CanonicalLR.Lexer.tokenize? clauses tracker ⟨0, 0⟩ v input

end CanonicalLR.Example.Scanner
