import CanonicalLR.Calculator.Basic
import CanonicalLR.Text.Quoted

namespace CanonicalLR.Calculator

structure Options where
  topDown : Bool := false
  dumpTable : Bool := false
  inputs : List String := []

namespace Options

def addInput (o : Options) (input : String) : Options := { o with inputs := o.inputs ++ [input] }

-- An argument that starts with a dash is a flag, unless it is a single dash. Each flag is known and given
-- only once. After a double dash, all arguments are inputs.
def add? (o : Options) : List String → Option Options
  | [] => some o
  | "--" :: args => some <| args.foldl addInput o
  | "--top-down" :: args => if o.topDown then none else add? { o with topDown := true } args
  | "--dump-table" :: args => if o.dumpTable then none else add? { o with dumpTable := true } args
  | arg :: args =>
    if arg ≠ "-" ∧ arg.toList.head? = some '-' then none else add? (o.addInput arg) args

-- There has to be an input.
def parse? (args : List String) : Option Options :=
  (add? {} args).filter fun o => ¬ o.inputs.isEmpty

def evaluation (o : Options) : Evaluation := if o.topDown then .topDown else .bottomUp

end Options

structure Outcome where
  code : Nat
  stdout : String := ""
  stderr : String := ""
  deriving DecidableEq

namespace Outcome

def usage : Outcome where
  code := 2
  stderr := "usage: [--top-down] [--dump-table] [--] INPUT...\n"

def failed (context cause : String) : Outcome where
  code := 1
  stderr := "Error: " ++ context ++ "\n\nCaused by:\n    " ++ cause ++ "\n"

def prepend (text : String) (o : Outcome) : Outcome := { o with stdout := text ++ o.stdout }

end Outcome

def line (e : Expr) : String :=
  e.text ++ " => " ++
    match e.eval with
    | some value => value.text ++ "\n"
    | none => "<undefined>\n"

-- The first input that fails ends the command; what has been printed before stays.
def evaluateAll (c : Calculator) (e : Evaluation) : List String → Outcome
  | [] => { code := 0 }
  | input :: inputs =>
    match c.parse e input with
    | .ok expr => (evaluateAll c e inputs).prepend (line expr)
    | .error f => .failed ("errored during parsing " ++ Text.quoted input) f.message

def dump (c : Calculator) : String := c.grammar.text ++ "\n" ++ c.table.text c.grammar ++ "\n"

def command (args : List String) : Outcome :=
  match Options.parse? args with
  | none => .usage
  | some o =>
    match build with
    | .error d => .failed "failed to compile the arithmetic grammar" d.message
    | .ok c => (c.evaluateAll o.evaluation o.inputs).prepend (if o.dumpTable then c.dump else "")

end CanonicalLR.Calculator
