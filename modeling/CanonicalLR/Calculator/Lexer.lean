import CanonicalLR.Lexer

namespace CanonicalLR.Calculator.Lexer

open CanonicalLR.Lexer (Clause Tracker)

def clauses : List Clause := [
  ⟨.run Lexicon.isBlank, .skip⟩,
  ⟨.char '(', .token "LPAREN"⟩, ⟨.char ')', .token "RPAREN"⟩, ⟨.char '+', .token "PLUS"⟩,
  ⟨.char '-', .token "MINUS"⟩, ⟨.char '*', .token "STAR"⟩, ⟨.char '/', .token "SLASH"⟩,
  ⟨.run Char.isDigit, .token "NUM"⟩]

-- The lines are found out before any token is read, so newlines are blanks like all others and nothing is noted on
-- the way.
def tracker (input : List Char) : Tracker Unit :=
  let index := LineIndex.ofText input
  { position? := fun _ offset => index.position? input offset
    newline := fun s _ => s }

def tokenize? (v : Vocabulary) (input : String) : Option (Except LexicalError (List (Token Terminal))) :=
  CanonicalLR.Lexer.tokenize? clauses (tracker input.toList) () v input

end CanonicalLR.Calculator.Lexer
