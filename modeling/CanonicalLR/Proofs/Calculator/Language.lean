import CanonicalLR.Calculator.Basic
import Mathlib.Data.List.Induction
import Mathlib.Data.Nat.Digits.Defs

namespace CanonicalLR.Calculator

-- The levels at which operators bind. Below them there are the factors.
inductive Chain where
  | sum
  | product

inductive Level where
  | chain (c : Chain)
  | factor

instance : Coe Chain Level := ⟨.chain⟩

-- The level of the operands on the right.
def Chain.operand : Chain → Level
  | sum => product
  | product => .factor

namespace Operator

def char : Operator → Char
  | add => '+'
  | sub => '-'
  | mul => '*'
  | div => '/'

def chain : Operator → Chain
  | add | sub => .sum
  | mul | div => .product

end Operator

-- The value of a numeral, the most significant digit of which comes first.
def decimal (ds : List Char) : Nat := Nat.ofDigits 10 (ds.reverse.map fun d => d.toNat - '0'.toNat)

-- Operators of the same level associate to the left. There may be blanks around all parts of a text.
inductive Written : Level → List Char → Expr → Prop
  | number {ds : List Char} {n : Number} (nonempty : ds ≠ []) (digits : ∀ d ∈ ds, d.isDigit)
    (value : n.toInt = decimal ds) : Written .factor ds (.num n)
  -- A number that does not fit in 64 bits with sign.
  | overflow {ds : List Char} (nonempty : ds ≠ []) (digits : ∀ d ∈ ds, d.isDigit)
    (value : 2 ^ 63 - 1 < decimal ds) : Written .factor ds .error
  | enclosed {cs : List Char} {e : Expr} (rec : Written Chain.sum cs e) :
    Written .factor ('(' :: cs ++ [')']) e
  | negated {cs : List Char} {e : Expr} (rec : Written .factor cs e) : Written .factor ('-' :: cs) (.neg e)
  | single {c : Chain} {cs : List Char} {e : Expr} (rec : Written c.operand cs e) : Written c cs e
  | binary {op : Operator} {before after : List Char} {lhs rhs : Expr} (left : Written op.chain before lhs)
    (right : Written op.chain.operand after rhs) :
    Written op.chain (before ++ op.char :: after) (.binary op lhs rhs)
  | blankBefore {level : Level} {b : Char} {cs : List Char} {e : Expr}
    (blank : b ∈ [' ', '\t', '\r', '\n', '\x0c']) (rec : Written level cs e) : Written level (b :: cs) e
  | blankAfter {level : Level} {b : Char} {cs : List Char} {e : Expr}
    (blank : b ∈ [' ', '\t', '\r', '\n', '\x0c']) (rec : Written level cs e) : Written level (cs ++ [b]) e

-- What the calculator makes of a numeral.

section

variable {ds : List Char} {d : Char}

theorem decimal_concat : decimal (ds ++ [d]) = 10 * decimal ds + (d.toNat - '0'.toNat) := by
  simp [decimal, Nat.ofDigits_cons, Nat.add_comm]

theorem foldl_eq_decimal :
    ds.foldl (fun n c => 10 * n + ((c.toNat - '0'.toNat : Nat) : Int)) 0 = decimal ds := by
  induction ds using List.reverseRecOn
  case nil => rfl
  case append_singleton ds d hi =>
    rw [List.foldl_append, hi, decimal_concat]
    simp

theorem parse?_numeral (hn : ds ≠ []) (hd : ∀ d ∈ ds, d.isDigit) :
    Number.parse? (.ofList ds) = Number.ofInt? (decimal ds) := by
  have hdigits : Number.digits? ds = some (decimal ds : Int) := by
    rw [Number.digits?, if_neg (by simpa [hn] using hd), foldl_eq_decimal]
  -- A digit is not a sign.
  unfold Number.parse?
  rw [String.toList_ofList]
  split
  case h_1 cs => exact absurd (hd '-' List.mem_cons_self) (by decide)
  case h_2 cs => exact absurd (hd '+' List.mem_cons_self) (by decide)
  case h_3 => rw [hdigits, Option.bind_some]

theorem inRange_natCast {k : Nat} : Number.InRange k ↔ k ≤ 2 ^ 63 - 1 := by
  have hmin : Int64.minValue.toInt = -2 ^ 63 := by decide
  have hmax : Int64.maxValue.toInt = 2 ^ 63 - 1 := by decide
  rw [Number.InRange, hmin, hmax]
  omega

theorem toExpr_number {n : Number} (hn : ds ≠ []) (hd : ∀ d ∈ ds, d.isDigit) (hv : n.toInt = decimal ds) :
    (Value.lexeme (.ofList ds)).toExpr = .num n := by
  rw [Value.toExpr, parse?_numeral hn hd, Number.ofInt?_eq_some_iff.mpr hv]

theorem toExpr_overflow (hn : ds ≠ []) (hd : ∀ d ∈ ds, d.isDigit) (hv : 2 ^ 63 - 1 < decimal ds) :
    (Value.lexeme (.ofList ds)).toExpr = .error := by
  have hrange : ¬ Number.InRange (decimal ds) := inRange_natCast.not.mpr (Nat.not_le_of_lt hv)
  rw [Value.toExpr, parse?_numeral hn hd, Number.ofInt?, if_neg hrange]

-- Every numeral is written for an expression.
theorem exists_written (hn : ds ≠ []) (hd : ∀ d ∈ ds, d.isDigit) : ∃ e, Written .factor ds e := by
  by_cases hv : 2 ^ 63 - 1 < decimal ds
  case pos => exact ⟨_, .overflow hn hd hv⟩
  case neg =>
    have hrange : Number.InRange (decimal ds) := inRange_natCast.mpr (Nat.le_of_not_lt hv)
    have hs : Number.ofInt? (decimal ds) = some (.ofInt (decimal ds)) := if_pos hrange
    exact ⟨_, .number hn hd (Number.ofInt?_eq_some_iff.mp hs)⟩

end
end CanonicalLR.Calculator
