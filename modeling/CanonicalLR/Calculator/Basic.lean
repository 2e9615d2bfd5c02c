import CanonicalLR.Calculator.Expr
import CanonicalLR.Derivation.Leftmost
import CanonicalLR.Evaluation.BottomUp
import CanonicalLR.Evaluation.TopDown
import CanonicalLR.Grammar.Draft
import CanonicalLR.Lexicon
import CanonicalLR.Table.Basic

namespace CanonicalLR

namespace Calculator

inductive Value where
  | lexeme (s : String)
  | expr (e : Expr)

namespace Value

instance : OfLexeme Value := ⟨.lexeme⟩

def toExpr : Value → Expr
  | lexeme s =>
    match Number.parse? s with
    | some n => .num n
    | none => .error
  | expr e => e

end Value

-- Rules over the values of a body, which are moved into the value of the head.

def take (position : Nat) : StateM (Args Value) Expr := do
  return (← Args.takeSynthesized position).elim .error Value.toExpr

def synthesized (e : StateM (Args Value) Expr) : Attributes Value :=
  .synthesized (do return .expr (← e) : StateM (Args Value) Value)

def pass (position : Nat) : Attributes Value := synthesized (take position)

def binary (op : Operator) : Attributes Value :=
  synthesized do return .binary op (← take 1) (← take 3)

def negation : Attributes Value :=
  synthesized do return .neg (← take 2)

-- Symbols are numbered in the order of their declaration.

def lparen : Terminal := ⟨1⟩
def rparen : Terminal := ⟨2⟩
def plus : Terminal := ⟨3⟩
def minus : Terminal := ⟨4⟩
def star : Terminal := ⟨5⟩
def slash : Terminal := ⟨6⟩
def num : Terminal := ⟨7⟩

def expr : Nonterminal := ⟨1⟩
def term : Nonterminal := ⟨2⟩
def factor : Nonterminal := ⟨3⟩

-- `E := E + T | E - T | T`, `T := T * F | T / F | F` and `F := num | ( E ) | - F`.
def declarations : List (Declaration Value) := [
  .terminal "LPAREN", .terminal "RPAREN", .terminal "PLUS", .terminal "MINUS", .terminal "STAR",
  .terminal "SLASH", .terminal "NUM",
  .nonterminal "EXPR", .nonterminal "TERM", .nonterminal "FACTOR",
  .start expr,
  .production expr [expr, plus, term] (binary .add),
  .production expr [expr, minus, term] (binary .sub),
  .production expr [term] (pass 1),
  .production term [term, star, factor] (binary .mul),
  .production term [term, slash, factor] (binary .div),
  .production term [factor] (pass 1),
  .production factor [num] (pass 1),
  .production factor [lparen, expr, rparen] (pass 2),
  .production factor [minus, factor] negation]

-- The order in which attributes are evaluated.
inductive Evaluation where
  | bottomUp
  | topDown
  deriving DecidableEq

-- What can be wrong with the grammar of a calculator.
inductive Defect where
  | grammar (e : GrammarError)
  | automaton (g : Grammar Value) (e : AutomatonError)
  | conflicts

namespace Defect

def message : Defect → String
  | grammar e => e.message
  | automaton g e => e.message g
  | conflicts => "the arithmetic grammar is not LR(1)"

end Defect

-- What can be wrong with an input.
inductive Failure where
  | lexical (e : LexicalError)
  | syntactic (e : ParseError)
  | evaluation (e : EvaluationError)
  | noValue
  | unfinished
  deriving DecidableEq

namespace Failure

def message : Failure → String
  | lexical (.unexpected c p) =>
    "unexpected character `" ++ String.singleton c ++ "' at line " ++ toString p.row ++
      ", column " ++ toString p.column
  | lexical (.unknownTerminal name) => "unknown terminal `" ++ name ++ "'"
  | syntactic e => e.message
  | evaluation e => e.message
  | noValue => "the input has no value"
  | unfinished => "the parse was given up"

end Failure

def tokenize (v : Vocabulary) (input : String) : Except Failure (List (Token Terminal)) :=
  (Lexicon.arithmetic.tokenize v input).mapError .lexical

end Calculator

structure Calculator where
  grammar : Grammar Calculator.Value
  table : Table

namespace Calculator

def ofDeclarations (declarations : List (Declaration Value)) : Except Defect Calculator :=
  match Grammar.define declarations with
  | .error e => .error (.grammar e)
  | .ok grammar =>
    match Table.compile grammar with
    | .error e => .error (.automaton grammar e)
    | .ok table => if table.conflicts.isEmpty then .ok ⟨grammar, table⟩ else .error .conflicts

def build : Except Defect Calculator := ofDeclarations declarations

-- A token is shifted at most once. Of the nodes for each nonterminal there are at most as many as there
-- are tokens: a factor starts with a token of its own, a term ends with a factor of its own, and an
-- expression ends with a term of its own. The last step stops the machine.
def stepLimit (tokens : List (Token Terminal)) : Nat := 4 * tokens.length + 1

def run (c : Calculator) (tokens : List (Token Terminal)) : Except Failure (Output ProductionId) :=
  match c.table.machine.parse? (stepLimit tokens) tokens with
  | some (.ok output) => .ok output
  | some (.error e) => .error (.syntactic e)
  | none => .error .unfinished

def evaluate (c : Calculator) (e : Evaluation) (output : Output ProductionId)
    (tokens : List (Token Terminal)) : Except EvaluationError (Option Value) :=
  match e with
  | .bottomUp => c.grammar.evaluateBottomUp output.reductions output.operations tokens
  | .topDown =>
    match c.grammar.leftmost output.reductions with
    | .error e => .error e
    | .ok derivation => c.grammar.evaluateTopDown derivation tokens

-- The expression that a text denotes.
def parse (c : Calculator) (e : Evaluation) (input : String) : Except Failure Expr := do
  let tokens ← tokenize c.grammar.toVocabulary input
  let output ← c.run tokens
  match c.evaluate e output tokens with
  | .error e => throw (.evaluation e)
  | .ok none => throw .noValue
  | .ok (some value) => return value.toExpr

end Calculator
end CanonicalLR
