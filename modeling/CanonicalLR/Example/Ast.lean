import CanonicalLR.Attribute
import CanonicalLR.Lexeme

namespace CanonicalLR.Example

inductive Ast where
  | leaf (lexeme : String)
  | node (label : String) (children : List Ast)
  deriving Inhabited

namespace Ast

instance : OfLexeme Ast := ⟨.leaf⟩

mutual

def text : Ast → String
  | .leaf lexeme => lexeme
  | .node label children => "(" ++ label ++ childrenText children ++ ")"

def childrenText : List Ast → String
  | [] => ""
  | child :: children => " " ++ child.text ++ childrenText children

end

-- Stands for a value that has not been computed.
def missing : Ast := .leaf "?"

end Ast

-- An expression over the attribute arrays of a production. Children are evaluated from left to right,
-- which matters because `take` moves values out of the arrays.
inductive Template where
  | leaf (text : String)
  | node (label : String) (children : List Template)
  | inherited (position : Nat)
  | synthesized (position : Nat)
  | takeInherited (position : Nat)
  | takeSynthesized (position : Nat)
  | length
  | isEmpty

namespace Template

mutual

def rule : Template → StateM (Args Ast) Ast
  | .leaf text => return .leaf text
  | .node label children => return .node label (← rules children)
  | .inherited i => return (← get).inherited? i |>.getD .missing
  | .synthesized i => return (← get).synthesized? i |>.getD .missing
  | .takeInherited i => return (← Args.takeInherited i).getD .missing
  | .takeSynthesized i => return (← Args.takeSynthesized i).getD .missing
  | .length => return .leaf <| toString (← get).length
  | .isEmpty => return .leaf <| toString (← get).isEmpty

def rules : List Template → StateM (Args Ast) (List Ast)
  | [] => return []
  | t :: ts => return (← t.rule) :: (← rules ts)

end

end Template
end CanonicalLR.Example
