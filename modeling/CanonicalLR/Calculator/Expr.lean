import CanonicalLR.Calculator.Number

namespace CanonicalLR.Calculator

inductive Operator where
  | add
  | sub
  | mul
  | div
  deriving DecidableEq

namespace Operator

def sign : Operator → String
  | add => "+"
  | sub => "-"
  | mul => "*"
  | div => "/"

-- Quotients are rounded toward zero. There is no value if a divisor is zero or the result takes more
-- than 64 bits.
def apply : Operator → Number → Number → Option Number
  | add, a, b => Number.ofInt? (a.toInt + b.toInt)
  | sub, a, b => Number.ofInt? (a.toInt - b.toInt)
  | mul, a, b => Number.ofInt? (a.toInt * b.toInt)
  | div, a, b => if b = 0 then none else Number.ofInt? (a.toInt.tdiv b.toInt)

end Operator

inductive Expr where
  | num (n : Number)
  | binary (op : Operator) (lhs rhs : Expr)
  | neg (e : Expr)
  -- Stands for an expression that cannot be represented.
  | error

namespace Expr

def eval : Expr → Option Number
  | num n => some n
  | binary op lhs rhs => do op.apply (← lhs.eval) (← rhs.eval)
  | neg e => do Number.ofInt? (-(← e.eval).toInt)
  | error => none

def text : Expr → String
  | num n => n.text
  | binary op lhs rhs => "(" ++ op.sign ++ " " ++ lhs.text ++ " " ++ rhs.text ++ ")"
  | neg e => "(neg " ++ e.text ++ ")"
  | error => "<error>"

end Expr
end CanonicalLR.Calculator
