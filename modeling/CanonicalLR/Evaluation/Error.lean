import CanonicalLR.Parser.Token

namespace CanonicalLR

-- What is wrong with a trace or a derivation that cannot be evaluated.
inductive EvaluationError where
  | notSAttributed (production : ProductionId)
  | unknownProduction (production : ProductionId)
  | derivationExhausted
  | derivationMismatch (expected : Nonterminal) (found : ProductionId)
  | tokenMismatch (expected : Terminal) (lexeme : String) (position : Position)
  | tokensExhausted
  | trailingTokens
  | reductionsExhausted
  | trailingReductions (count : Nat)
  | valueStack (size : Nat)
  | unbalancedReductions (roots : Nat)
  deriving DecidableEq

namespace EvaluationError

def message : EvaluationError → String
  | notSAttributed production => "the production " ++ Tagged.tag production ++ " has inherited attributes"
  | unknownProduction production =>
    "the production " ++ Tagged.tag production ++ " is not part of the grammar"
  | derivationExhausted => "the derivation ended before the input was covered"
  | derivationMismatch expected found =>
    "expected a production of " ++ Tagged.tag expected ++ ", found " ++ Tagged.tag found
  | tokenMismatch expected lexeme position =>
    "the token `" ++ lexeme ++ "' at line " ++ toString position.row ++
      ", column " ++ toString position.column ++ " is not a " ++ Tagged.tag expected
  | tokensExhausted => "the token stream ended before the end of input"
  | trailingTokens => "unconsumed tokens remain before the end of input"
  | reductionsExhausted => "the reduction trace ended before the operation trace"
  | trailingReductions count => toString count ++ " reductions remain after the operation trace"
  | valueStack size => "the value stack holds " ++ toString size ++ " values"
  | unbalancedReductions roots =>
    "the reduction trace does not form a single tree (" ++ toString roots ++ " roots)"

end EvaluationError
end CanonicalLR
