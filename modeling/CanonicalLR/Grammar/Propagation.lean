import CanonicalLR.Grammar.First

namespace CanonicalLR

namespace Step

variable {α β : Type}

-- Visits that change nothing give `none`. The mark tells whether there has been a change.
def sweep (visit : α → β → Option α) : List β → α × Bool → α × Bool
  | [], s => s
  | x :: xs, (a, changed) =>
    match visit a x with
    | some b => sweep visit xs (b, true)
    | none => sweep visit xs (a, changed)

-- Every visit sees what the visits before it have found. Passes are repeated until one changes nothing.
def pass (visit : α → β → Option α) (xs : List β) (a : α) : Step α α :=
  match sweep visit xs (a, false) with
  | (b, true) => .next b
  | (b, false) => .done b

end Step

-- Whatever the lower symbol begins with, the upper one begins with as well.
structure Constraint where
  upper : Nonterminal
  lower : Symbol

namespace FirstSets

-- A symbol that is not declared has no set that could be extended.
def impose (f : FirstSets) (c : Constraint) : Option FirstSets :=
  match f.sets[c.upper.index]? with
  | none => none
  | some s =>
    if (f.first c.lower).subset s then
      none
    else
      some { f with sets := f.sets.set c.upper.index (s ∪ f.first c.lower) }

end FirstSets

namespace Grammar

variable {V : Type}

-- A head is found once its body vanishes.
def discover (known : List Nonterminal) (p : Production V) : Option (List Nonterminal) :=
  if p.head ∈ known then
    none
  else if p.body.all (Symbol.vanishes known) then
    some (known ++ [p.head])
  else
    none

def emptyHeads (g : Grammar V) : List Nonterminal :=
  (g.productions.filter (·.body.isEmpty)).map (·.head)

-- The symbols of a body up to the first one that does not vanish.
def leading (known : List Nonterminal) : List Symbol → List Symbol
  | [] => []
  | s :: rest => if s.vanishes known then s :: leading known rest else [s]

def constraints (g : Grammar V) (known : List Nonterminal) : List Constraint :=
  g.productions.flatMap fun p =>
    ((leading known p.body).filter (.nonterminal p.head ≠ ·)).map (⟨p.head, ·⟩)

-- Terminals begin with themselves, and nonterminals with nothing so far.
def propagationStart (g : Grammar V) (known : List Nonterminal) : FirstSets :=
  { g.firstStart with nullable := known }

end Grammar
end CanonicalLR
