namespace CanonicalLR.Text

-- The decimal numeral of `n`, filled with zeros on the left up to `width` digits.
def padded (width n : Nat) : String :=
  let digits := toString n
  "".pushn '0' (width - digits.length) ++ digits

end CanonicalLR.Text
