import CanonicalLR.Event
import CanonicalLR.Iteration
import CanonicalLR.Parser.Token

namespace CanonicalLR

inductive Action (σ ν ρ : Type) where
  | shift (next : σ)
  | reduce (label : ρ) (head : ν) (length : Nat)
  | accept
  deriving DecidableEq

namespace Action

variable {σ ν ρ : Type}

def isShift : Action σ ν ρ → Bool
  | shift _ => true
  | _ => false

end Action

inductive Operation where
  | shift
  | reduce
  deriving DecidableEq

-- The labels of the reductions and the operations of a successful run, in order.
structure Output (ρ : Type) where
  reductions : List ρ
  operations : List Operation
  deriving DecidableEq

inductive ParseError where
  | unexpectedToken (lexeme : String) (position : Position)
  | tokensExhausted
  | missingGoto
  | emptyStack
  deriving DecidableEq

namespace ParseError

def message : ParseError → String
  | unexpectedToken lexeme position =>
    "syntax error near token `" ++ lexeme ++ "' at line " ++ toString position.row ++
      ", column " ++ toString position.column
  | tokensExhausted => "the token stream ended before the input was accepted"
  | missingGoto => "no goto entry for the reduced nonterminal"
  | emptyStack => "empty state stack"

end ParseError

structure Machine (σ τ ν ρ : Type) where
  initial : σ
  action : σ → τ → Option (Action σ ν ρ)
  goto : σ → ν → Option σ

-- All lists but the remaining tokens have their latest element first.
structure Config (σ τ ρ : Type) where
  stack : List σ
  rest : List (Token τ)
  reductions : List ρ
  operations : List Operation

namespace Machine

variable {σ τ ν ρ : Type}

def start (m : Machine σ τ ν ρ) (tokens : List (Token τ)) : Config σ τ ρ where
  stack := [m.initial]
  rest := tokens
  reductions := []
  operations := []

-- Pop `length` states and push the state reached on `head` from the one below. The bottom of the stack
-- is never popped.
def reduceStack (m : Machine σ τ ν ρ) (head : ν) (length : Nat) (stack : List σ) :
    Except ParseError (List σ) :=
  if stack.length ≤ length then
    .error .emptyStack
  else
    match stack.drop length with
    | [] => .error .emptyStack
    | top :: below =>
      match m.goto top head with
      | some next => .ok (next :: top :: below)
      | none => .error .missingGoto

-- The action in the cell of the top state and the next token, if there are both.
def lookup? (m : Machine σ τ ν ρ) (c : Config σ τ ρ) : Option (Option (Action σ ν ρ)) :=
  match c.stack, c.rest with
  | top :: _, token :: _ => some (m.action top token.kind)
  | _, _ => none

def step (m : Machine σ τ ν ρ) (c : Config σ τ ρ) : Step (Config σ τ ρ) (Except ParseError (Output ρ)) :=
  match c.stack, c.rest with
  | [], _ => .done (.error .emptyStack)
  | _ :: _, [] => .done (.error .tokensExhausted)
  | top :: _, token :: rest =>
    match m.action top token.kind with
    | some (.shift next) =>
      .next { c with stack := next :: c.stack, rest, operations := .shift :: c.operations }
    | some (.reduce label head length) =>
      match m.reduceStack head length c.stack with
      | .ok stack =>
        .next { c with
          stack
          reductions := label :: c.reductions
          operations := .reduce :: c.operations }
      | .error e => .done (.error e)
    | some .accept => .done (.ok ⟨c.reductions.reverse, c.operations.reverse⟩)
    | none => .done (.error (.unexpectedToken token.lexeme token.position))

-- A run may go on forever if the machine reduces without end, so it is limited.
def parse? (m : Machine σ τ ν ρ) (limit : Nat) (tokens : List (Token τ)) :
    Option (Except ParseError (Output ρ)) :=
  Step.run m.step limit (m.start tokens)

-- The configurations that a run passes through, in order.
def configs (m : Machine σ τ ν ρ) (limit : Nat) (tokens : List (Token τ)) : List (Config σ τ ρ) :=
  Step.states m.step limit (m.start tokens)

-- The number of cells that a run looks up.
def lookups (m : Machine σ τ ν ρ) (limit : Nat) (tokens : List (Token τ)) : Nat :=
  (m.configs limit tokens).countP fun c => (m.lookup? c).isSome

section Events

variable [Tagged σ] [Tagged τ] [Tagged ν]

-- A reduction is announced before it is known to succeed.
def configEvents (m : Machine σ τ ν ρ) (c : Config σ τ ρ) : List Event :=
  match c.stack, c.rest with
  | top :: below, token :: _ =>
    let stack := ", ".intercalate ((top :: below).reverse.map Tagged.tag)
    ⟨.trace, "stack = [" ++ stack ++ "], lookahead = " ++ Tagged.tag token.kind⟩ ::
      match m.action top token.kind with
      | some (.shift next) => [⟨.trace, "shift(" ++ Tagged.tag next ++ ")"⟩]
      | some (.reduce _ head length) =>
        [⟨.trace, "reduce to " ++ Tagged.tag head ++ " (" ++ toString length ++ " symbols)"⟩]
      | some .accept => [⟨.trace, "accept"⟩]
      | none => []
  | _, _ => []

def events (m : Machine σ τ ν ρ) (limit : Nat) (tokens : List (Token τ)) : List Event :=
  (m.configs limit tokens).flatMap m.configEvents

end Events

end Machine
end CanonicalLR
