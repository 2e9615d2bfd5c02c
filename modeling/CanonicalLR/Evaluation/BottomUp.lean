import CanonicalLR.Evaluation.Error
import CanonicalLR.Event
import CanonicalLR.Grammar.Basic
import CanonicalLR.Lexeme
import CanonicalLR.Parser.Machine

namespace CanonicalLR

variable {V : Type}

namespace BottomUp

-- A trace that is being replayed. A shift pushes the value of a token, and a reduction replaces the values
-- of a body by the value of the head.
structure Replay (V : Type) where
  reductions : List ProductionId
  tokens : List (Token Terminal)
  -- The latest value comes first.
  values : List (Option V)

variable [OfLexeme V]

namespace Replay

def shift (r : Replay V) : Except EvaluationError (Replay V) :=
  match r.tokens with
  | [] => .error .tokensExhausted
  | token :: tokens => .ok { r with tokens, values := some (ofLexeme token.lexeme) :: r.values }

-- The arguments for the rule of a head, given the values of the body.
def args (values : List (Option V)) : Args V where
  inherited := List.replicate (values.length + 1) none
  synthesized := none :: values

def reduce (g : Grammar V) (r : Replay V) : Except EvaluationError (Replay V) :=
  match r.reductions with
  | [] => .error .reductionsExhausted
  | id :: reductions =>
    match g.production? id with
    | none => .error (.unknownProduction id)
    | some p =>
      let n := p.body.length
      if r.values.length < n then
        .error (.valueStack r.values.length)
      else
        let value := p.attributes.value <| args (r.values.take n).reverse
        .ok { r with reductions, values := value :: r.values.drop n }

def step (g : Grammar V) (r : Replay V) : Operation → Except EvaluationError (Replay V)
  | .shift => r.shift
  | .reduce => r.reduce g

-- The value of a complete replay, which has covered all tokens before the end of input.
def value (r : Replay V) : Except EvaluationError (Option V) :=
  match r.reductions, r.values with
  | [], [value] =>
    match r.tokens with
    | [] => .error .tokensExhausted
    | token :: _ => if token.kind = .eof then .ok value else .error .trailingTokens
  | [], values => .error (.valueStack values.length)
  | reductions, _ => .error (.trailingReductions reductions.length)

-- The productions that are reduced until the operations end or fail.
def reduced (g : Grammar V) (r : Replay V) : List Operation → List ProductionId
  | [] => []
  | op :: operations =>
    match r.step g op with
    | .error _ => []
    | .ok next =>
      match op with
      | .shift => next.reduced g operations
      | .reduce => r.reductions.take 1 ++ next.reduced g operations

end Replay

-- Only the values of the body are at hand when a production is reduced, so there must not be a
-- production that inherits.
def check (g : Grammar V) (id : ProductionId) : Except EvaluationError Unit :=
  match g.production? id with
  | none => .error (.unknownProduction id)
  | some p => if p.attributes.isSAttributed then .ok () else .error (.notSAttributed id)

end BottomUp

namespace Grammar

variable [OfLexeme V]

-- There is nothing to evaluate without reductions, operations or tokens.
def evaluateBottomUp (g : Grammar V) (reductions : List ProductionId) (operations : List Operation)
    (tokens : List (Token Terminal)) : Except EvaluationError (Option V) :=
  if reductions.isEmpty ∨ operations.isEmpty ∨ tokens.isEmpty then
    .ok none
  else do
    reductions.forM (BottomUp.check g)
    let replay : BottomUp.Replay V := ⟨reductions, tokens, []⟩
    let replay ← operations.foldlM (BottomUp.Replay.step g) replay
    replay.value

def bottomUpEvents (g : Grammar V) (reductions : List ProductionId) (operations : List Operation)
    (tokens : List (Token Terminal)) : List Event :=
  if reductions.isEmpty ∨ operations.isEmpty ∨ tokens.isEmpty then
    []
  else
    match reductions.forM (BottomUp.check g) with
    | .error _ => []
    | .ok () =>
      let replay : BottomUp.Replay V := ⟨reductions, tokens, []⟩
      (replay.reduced g operations |>.filterMap g.production?).map fun p =>
        ⟨.trace, "reduce " ++ g.productionText p⟩

end Grammar
end CanonicalLR
