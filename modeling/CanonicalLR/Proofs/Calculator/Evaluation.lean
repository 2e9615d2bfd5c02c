import CanonicalLR.Calculator.Expr
import Mathlib.Algebra.Ring.Int.Defs

namespace CanonicalLR.Calculator

namespace Number

variable {n : Int} {a : Number}

theorem inRange_iff : InRange n ↔ -2 ^ 63 ≤ n ∧ n ≤ 2 ^ 63 - 1 := Iff.rfl

theorem InRange.exists_toInt (h : InRange n) : ∃ a : Number, a.toInt = n :=
  ⟨.ofInt n, ofInt?_eq_some_iff.mp (if_pos h)⟩

theorem toInt_eq_zero : a.toInt = 0 ↔ a = 0 := Int64.toInt_inj (y := 0)

end Number

namespace Operator

-- Over the integers, only a divisor can keep an operator from having a value.
def exact : Operator → Int → Int → Option Int
  | add, m, n => some (m + n)
  | sub, m, n => some (m - n)
  | mul, m, n => some (m * n)
  | div, m, n => if n = 0 then none else some (m.tdiv n)

theorem apply_eq_some_iff {op : Operator} {a b c : Number} :
    op.apply a b = some c ↔ op.exact a.toInt b.toInt = some c.toInt := by
  cases op
  case div =>
    simp only [apply, exact, Number.toInt_eq_zero]
    split
    case isTrue => simp
    case isFalse => rw [Number.ofInt?_eq_some_iff, Option.some.injEq, eq_comm]
  all_goals rw [apply, Number.ofInt?_eq_some_iff, exact, Option.some.injEq, eq_comm]

end Operator

namespace Expr

variable {e lhs rhs : Expr} {op : Operator} {v : Number}

def exact : Expr → Option Int
  | num n => some n.toInt
  | binary op lhs rhs => do op.exact (← lhs.exact) (← rhs.exact)
  | neg e => do return -(← e.exact)
  | error => none

-- The expression itself and all expressions inside it.
def parts : Expr → List Expr
  | num n => [num n]
  | binary op lhs rhs => binary op lhs rhs :: (lhs.parts ++ rhs.parts)
  | neg e => neg e :: e.parts
  | error => [error]

-- The exact value is there, and it is that of a number.
def Representable (e : Expr) : Prop := ∃ n, e.exact = some n ∧ -2 ^ 63 ≤ n ∧ n ≤ 2 ^ 63 - 1

theorem mem_parts_self (e : Expr) : e ∈ e.parts := by
  cases e
  all_goals exact .head _

theorem representable_iff : e.Representable ↔ ∃ a : Number, e.exact = some a.toInt := by
  constructor
  case mp =>
    intro ⟨n, he, hn⟩
    obtain ⟨a, rfl⟩ := (Number.inRange_iff.mpr hn).exists_toInt
    exact ⟨a, he⟩
  case mpr =>
    intro ⟨a, ha⟩
    exact ⟨a.toInt, ha, Number.inRange_iff.mp a.inRange_toInt⟩

theorem eval_eq_some_iff : e.eval = some v ↔ (∀ p ∈ e.parts, p.Representable) ∧ e.exact = some v.toInt := by
  induction e generalizing v
  case num n =>
    simp only [eval, exact, parts, List.forall_mem_singleton, Option.some.injEq, Int64.toInt_inj]
    exact ⟨fun h => ⟨representable_iff.mpr ⟨n, rfl⟩, h⟩, And.right⟩
  case binary op lhs rhs hl hr =>
    rw [parts, List.forall_mem_cons, List.forall_mem_append]
    constructor
    case mp =>
      intro h
      obtain ⟨a, ha, b, hb, hv⟩ :
          ∃ a, lhs.eval = some a ∧ ∃ b, rhs.eval = some b ∧ op.apply a b = some v := by
        simpa [eval, Option.bind_eq_some_iff] using h
      have ⟨hlp, hle⟩ := hl.mp ha
      have ⟨hrp, hre⟩ := hr.mp hb
      have he : (binary op lhs rhs).exact = some v.toInt := by
        rw [exact, hle, hre]
        exact Operator.apply_eq_some_iff.mp hv
      exact ⟨⟨representable_iff.mpr ⟨v, he⟩, hlp, hrp⟩, he⟩
    case mpr =>
      intro ⟨⟨_, hlp, hrp⟩, he⟩
      have ⟨a, ha⟩ := representable_iff.mp (hlp lhs lhs.mem_parts_self)
      have ⟨b, hb⟩ := representable_iff.mp (hrp rhs rhs.mem_parts_self)
      rw [exact, ha, hb] at he
      rw [eval, hl.mpr ⟨hlp, ha⟩, hr.mpr ⟨hrp, hb⟩]
      exact Operator.apply_eq_some_iff.mpr he
  case neg e hi =>
    rw [parts, List.forall_mem_cons]
    constructor
    case mp =>
      intro h
      obtain ⟨a, ha, hv⟩ : ∃ a, e.eval = some a ∧ Number.ofInt? (-a.toInt) = some v := by
        simpa [eval, Option.bind_eq_some_iff] using h
      have ⟨hp, he⟩ := hi.mp ha
      have he : (neg e).exact = some v.toInt := by
        rw [exact, he, Number.ofInt?_eq_some_iff.mp hv]
        rfl
      exact ⟨⟨representable_iff.mpr ⟨v, he⟩, hp⟩, he⟩
    case mpr =>
      intro ⟨⟨_, hp⟩, he⟩
      have ⟨a, ha⟩ := representable_iff.mp (hp e e.mem_parts_self)
      rw [exact, ha] at he
      rw [eval, hi.mpr ⟨hp, ha⟩]
      exact Number.ofInt?_eq_some_iff.mpr (Option.some.inj he).symm
  case error => simp [eval, exact]

-- What cannot be represented is no part of an expression with representable parts.
theorem error_notMem_parts (h : ∀ p ∈ e.parts, p.Representable) : error ∉ e.parts := by
  intro hm
  obtain ⟨_, hn, _⟩ := h error hm
  contradiction

-- The value is there just if it is there over the integers and no part of it overflows.
theorem eval_exact (e : Expr) :
    (∀ v, e.eval = some v ↔
      error ∉ e.parts ∧ (∀ p ∈ e.parts, p.Representable) ∧ e.exact = some v.toInt) ∧
    (e.eval = none ↔ ¬ (error ∉ e.parts ∧ ∀ p ∈ e.parts, p.Representable)) := by
  constructor
  case left =>
    intro v
    rw [eval_eq_some_iff]
    exact ⟨fun h => ⟨error_notMem_parts h.left, h⟩, And.right⟩
  case right =>
    rw [Option.eq_none_iff_forall_ne_some]
    constructor
    case mp =>
      intro hn ⟨_, hp⟩
      have ⟨a, ha⟩ := representable_iff.mp (hp e e.mem_parts_self)
      exact hn a (eval_eq_some_iff.mpr ⟨hp, ha⟩)
    case mpr =>
      intro hn v hv
      have ⟨hp, _⟩ := eval_eq_some_iff.mp hv
      exact hn ⟨error_notMem_parts hp, hp⟩

-- The least number has no negation, so it cannot be negated twice either.
example : (neg (neg (num Int64.minValue))).eval = none := by decide

end Expr
end CanonicalLR.Calculator
