import CanonicalLR.Parser.Machine
import CanonicalLR.Grammar.Basic

namespace CanonicalLR

-- A tree records a derivation, by its inner nodes, and the string that is derived, by its leaves.
inductive Tree where
  | leaf (t : Terminal)
  | node (production : ProductionId) (head : Nonterminal) (children : List Tree)

namespace Tree

def symbol : Tree → Symbol
  | leaf t => t
  | node _ head _ => head

mutual

-- The derived string.
def yield : Tree → List Terminal
  | leaf t => [t]
  | node _ _ children => yieldAll children

def yieldAll : List Tree → List Terminal
  | [] => []
  | t :: ts => t.yield ++ yieldAll ts

end

mutual

-- The productions of the leftmost derivation.
def preorder : Tree → List ProductionId
  | leaf _ => []
  | node id _ children => id :: preorderAll children

def preorderAll : List Tree → List ProductionId
  | [] => []
  | t :: ts => t.preorder ++ preorderAll ts

end

mutual

-- The productions of the rightmost derivation, in reverse.
def postorder : Tree → List ProductionId
  | leaf _ => []
  | node id _ children => postorderAll children ++ [id]

def postorderAll : List Tree → List ProductionId
  | [] => []
  | t :: ts => t.postorder ++ postorderAll ts

end

mutual

-- How a machine assembles the tree from left to right.
def operations : Tree → List Operation
  | leaf _ => [.shift]
  | node _ _ children => operationsAll children ++ [.reduce]

def operationsAll : List Tree → List Operation
  | [] => []
  | t :: ts => t.operations ++ operationsAll ts

end

theorem preorderAll_eq {ts : List Tree} : preorderAll ts = ts.flatMap preorder := by
  induction ts <;> simp_all [preorderAll]

theorem postorderAll_eq {ts : List Tree} : postorderAll ts = ts.flatMap postorder := by
  induction ts <;> simp_all [postorderAll]

theorem operationsAll_eq {ts : List Tree} : operationsAll ts = ts.flatMap operations := by
  induction ts <;> simp_all [operationsAll]

theorem yieldAll_eq {ts : List Tree} : yieldAll ts = ts.flatMap yield := by
  induction ts <;> simp_all [yieldAll]

@[simp]
theorem yieldAll_append {ts us : List Tree} : yieldAll (ts ++ us) = yieldAll ts ++ yieldAll us := by
  simp [yieldAll_eq]

@[simp]
theorem preorderAll_append {ts us : List Tree} :
    preorderAll (ts ++ us) = preorderAll ts ++ preorderAll us := by
  simp [preorderAll_eq]

@[simp]
theorem postorderAll_append {ts us : List Tree} :
    postorderAll (ts ++ us) = postorderAll ts ++ postorderAll us := by
  simp [postorderAll_eq]

@[simp]
theorem operationsAll_append {ts us : List Tree} :
    operationsAll (ts ++ us) = operationsAll ts ++ operationsAll us := by
  simp [operationsAll_eq]

-- Every inner node applies a production of the grammar.
inductive WellFormed {V : Type} (g : Grammar V) : Tree → Prop where
  | leaf (t : Terminal) : WellFormed g (leaf t)
  | node (p : Production V) (children : List Tree) (lookup : g.production? p.id = some p)
    (body : p.body = children.map symbol) (rec : ∀ t ∈ children, WellFormed g t) :
    WellFormed g (node p.id p.head children)

end Tree
end CanonicalLR
