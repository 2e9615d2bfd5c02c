import CanonicalLR.Automaton.Item
import CanonicalLR.Grammar.First

namespace CanonicalLR

variable {V : Type}

inductive AutomatonError where
  | notAugmented (count : Nat)
  | epsilonLookahead (item : Item)
  | tooManyStates
  -- The construction took more steps than it has been granted.
  | unfinished

namespace AutomatonError

def message (g : Grammar V) : AutomatonError → String
  | notAugmented count =>
    "the grammar is not augmented (" ++ toString count ++ " productions for the start symbol)"
  | epsilonLookahead item => "epsilon leaked into the lookaheads while expanding `" ++ item.text g ++ "'"
  | tooManyStates => "too many states"
  | unfinished => "the construction was given up"

end AutomatonError

namespace Item

-- The items that an item predicts. What may follow a predicted production is whatever begins the
-- rest of the body, or a lookahead of the item itself if the rest vanishes. With neither, the
-- production could be reduced before nothing at all.
def expand (g : Grammar V) (firsts : FirstSets) (i : Item) : Except AutomatonError (List Item) :=
  match i.next? g with
  | some (.nonterminal n) =>
    let first := firsts.localFirst (i.center.rest g) i.lookaheads
    if first.epsilon then
      .error (.epsilonLookahead i)
    else
      .ok <| (g.productionsOf n).map fun p => ⟨⟨p.id, 0⟩, first.terminals⟩
  | _ => .ok []

end Item

-- Items are expanded one by one, in the order in which they have been found. Items that share a center
-- but not the lookaheads are different here; they are united in the end.
structure Worklist where
  -- The latest item comes first.
  expanded : List Item
  pending : List Item

namespace Worklist

def add (w : Worklist) (i : Item) : Worklist :=
  if i ∈ w.pending ∨ i ∈ w.expanded then w else { w with pending := w.pending ++ [i] }

def step (g : Grammar V) (firsts : FirstSets) (w : Worklist) :
    Step Worklist (Except AutomatonError (List Item)) :=
  match w.pending with
  | [] => .done (.ok w.expanded)
  | i :: pending =>
    match i.expand g firsts with
    | .error e => .done (.error e)
    | .ok items => .next <| items.foldl add ⟨i :: w.expanded, pending⟩

-- Every item that is found is either given or a production with the marker in front. The lookaheads
-- of the latter are drawn from the declared terminals and the given lookaheads.
def limit (g : Grammar V) (items : List Item) : Nat :=
  let terminals := items.foldl (· ∪ ·.lookaheads) (TerminalSet.ofList g.terminalIds)
  items.length + g.productions.length * (terminals.bits + 1) + 1

end Worklist

namespace ItemSet

def closure (g : Grammar V) (firsts : FirstSets) (s : ItemSet) : Except AutomatonError ItemSet :=
  match Step.run (Worklist.step g firsts) (Worklist.limit g s.items) ⟨[], s.items⟩ with
  | some (.ok items) => .ok (ofList items)
  | some (.error e) => .error e
  | none => .error .unfinished

end ItemSet
end CanonicalLR
