import CanonicalLR.Symbol

namespace CanonicalLR

-- Rows and columns count from one.
structure Position where
  row : Nat
  column : Nat
  deriving DecidableEq

namespace Position

def origin : Position := ⟨1, 1⟩

-- The position after a character that takes up `width c` columns.
def advance (width : Char → Nat) (p : Position) (c : Char) : Position :=
  if c = '\n' then ⟨p.row + 1, 1⟩ else { p with column := p.column + width c }

end Position

structure Token (τ : Type) where
  lexeme : String
  kind : τ
  position : Position

namespace Token

def endOfInput (p : Position) : Token Terminal := ⟨"$", .eof, p⟩

variable {τ : Type}

def text [Tagged τ] (t : Token τ) : String :=
  Tagged.tag t.kind ++ " `" ++ t.lexeme ++ "' (" ++
    toString t.position.row ++ ":" ++ toString t.position.column ++ ")"

end Token
end CanonicalLR
