namespace CanonicalLR

-- A type of semantic values in which the lexeme of a shifted token has a value.
class OfLexeme (V : Type) where
  ofLexeme : String → V

export OfLexeme (ofLexeme)

instance : OfLexeme String := ⟨id⟩

end CanonicalLR
