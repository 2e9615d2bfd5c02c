namespace CanonicalLR.Text

-- A set of characters, as the ascending list of the code points at which membership changes: the
-- members start at the first code point of the list and end before the second one, and so on.
abbrev InversionList := List Nat

namespace InversionList

-- A character is a member if it has passed an odd number of changes.
def contains (l : InversionList) (c : Char) : Bool := l.countP (· ≤ c.toNat) % 2 = 1

end InversionList
end CanonicalLR.Text
