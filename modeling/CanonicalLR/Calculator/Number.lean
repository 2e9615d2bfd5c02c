namespace CanonicalLR.Calculator

abbrev Number := Int64

namespace Number

-- The integers that are the value of a number.
def InRange (n : Int) : Prop := Int64.minValue.toInt ≤ n ∧ n ≤ Int64.maxValue.toInt

instance (n : Int) : Decidable (InRange n) := inferInstanceAs <| Decidable (_ ∧ _)

def ofInt? (n : Int) : Option Number := if InRange n then some (.ofInt n) else none

theorem inRange_toInt (a : Number) : InRange a.toInt := ⟨a.minValue_le_toInt, a.toInt_le⟩

theorem ofInt?_eq_some_iff {n : Int} {a : Number} : ofInt? n = some a ↔ a.toInt = n := by
  unfold ofInt?
  constructor
  case mp =>
    intro h
    split at h
    case isTrue hn =>
      cases h
      exact Int64.toInt_ofInt_of_le hn.left (Int.lt_of_le_of_lt hn.right (by decide))
    case isFalse => contradiction
  case mpr =>
    intro h
    subst h
    rw [if_pos a.inRange_toInt, Int64.ofInt_toInt]

def text (a : Number) : String := toString a.toInt

def digits? (cs : List Char) : Option Int :=
  if cs.isEmpty ∨ ¬ cs.all Char.isDigit then
    none
  else
    some <| cs.foldl (fun n c => 10 * n + (c.toNat - '0'.toNat : Nat)) 0

-- A decimal numeral, with or without a sign.
def parse? (numeral : String) : Option Number :=
  match numeral.toList with
  | '-' :: cs => (digits? cs).bind fun n => ofInt? (-n)
  | '+' :: cs => (digits? cs).bind ofInt?
  | cs => (digits? cs).bind ofInt?

end Number
end CanonicalLR.Calculator
