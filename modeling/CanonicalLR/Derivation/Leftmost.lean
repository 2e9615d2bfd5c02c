import CanonicalLR.Derivation.Tree
import CanonicalLR.Evaluation.Error

namespace CanonicalLR

variable {V : Type}

namespace Tree

-- Attach trees to the nonterminals of a body. There must be as many trees as there are nonterminals,
-- and each tree must be a node for its nonterminal.
def attach : List Symbol → List Tree → Except EvaluationError (List Tree)
  | .terminal t :: body, trees => do
    let children ← attach body trees
    return leaf t :: children
  | .nonterminal n :: body, node id head children :: trees =>
    if head = n then do
      let siblings ← attach body trees
      return node id head children :: siblings
    else
      .error (.derivationMismatch n id)
  | _, _ => .ok []

-- The trees that are not leaves.
def nodes (ts : List Tree) : List Tree := ts.filter (·.symbol.nonterminal?.isSome)

@[simp]
theorem nodes_nil : nodes [] = [] := rfl

@[simp]
theorem nodes_leaf {a : Terminal} {ts : List Tree} : nodes (leaf a :: ts) = nodes ts := rfl

@[simp]
theorem nodes_node {id : ProductionId} {n : Nonterminal} {children ts : List Tree} :
    nodes (node id n children :: ts) = node id n children :: nodes ts := rfl

@[simp]
theorem preorderAll_nodes {ts : List Tree} : preorderAll (nodes ts) = preorderAll ts := by
  induction ts
  case nil => rfl
  case cons t ts hi => cases t <;> simp [preorderAll, preorder, hi]

-- Trees are pending, the next one first. When a tree is taken, its children are put in front of the others.
def walk : List Tree → List ProductionId
  | [] => []
  | leaf _ :: pending => walk pending
  | node id _ children :: pending => id :: walk (nodes children ++ pending)
termination_by pending => ((preorderAll pending).length, pending.length)
decreasing_by
  · exact Prod.Lex.right _ (Nat.lt_succ_self _)
  · refine Prod.Lex.left _ _ ?_
    simp [preorderAll, preorder]

end Tree

namespace Grammar

-- Make the latest trees of a forest the children of a new one. The latest tree comes first.
def plant (g : Grammar V) (forest : List Tree) (id : ProductionId) : Except EvaluationError (List Tree) :=
  match g.production? id with
  | none => .error (.unknownProduction id)
  | some p =>
    let arity := p.body.countP (·.nonterminal?.isSome)
    if forest.length < arity then
      .error (.unbalancedReductions forest.length)
    else
      match Tree.attach p.body (forest.take arity).reverse with
      | .error e => .error e
      | .ok children => .ok (.node id p.head children :: forest.drop arity)

def forest (g : Grammar V) (reductions : List ProductionId) : Except EvaluationError (List Tree) :=
  reductions.foldlM g.plant []

-- The leftmost derivation with the given reductions.
def leftmost (g : Grammar V) (reductions : List ProductionId) : Except EvaluationError (List ProductionId) :=
  match g.forest reductions with
  | .error e => .error e
  | .ok [] => .ok []
  | .ok [tree] => .ok (Tree.walk [tree])
  | .ok trees => .error (.unbalancedReductions trees.length)

end Grammar
end CanonicalLR
