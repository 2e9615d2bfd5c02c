import CanonicalLR.Table.Basic

namespace CanonicalLR

namespace Witness

inductive Outcome where
  | reached
  | shifted (stack : List StateId)
  | stuck

-- Reduce before a lookahead until it is shifted. The budget limits the number of reductions.
def consume (t : Table) (cell : StateId × Terminal) (lookahead : Terminal) : Nat → List StateId → Outcome
  | _, [] => .stuck
  | budget, top :: below =>
    if (top, lookahead) = cell then
      .reached
    else
      match t.action? top lookahead with
      | some (.shift next) => .shifted (next :: top :: below)
      | some (.reduce _ head length) =>
        match budget with
        | 0 => .stuck
        | budget + 1 =>
          match t.machine.reduceStack head length (top :: below) with
          | .ok stack => consume t cell lookahead budget stack
          | .error _ => .stuck
      | _ => .stuck

-- A string with the stack that it leads to. Both have their latest element first.
structure Trail where
  stack : List StateId
  word : List Terminal

-- The trails of one length, found so far. The latest trail comes first.
structure Level where
  visited : List (StateId × Nat)
  trails : List Trail

namespace Level

def add (l : Level) (trail : Trail) : Level :=
  match trail.stack with
  | [] => l
  | top :: _ =>
    let key := (top, trail.stack.length)
    if key ∈ l.visited then l else ⟨key :: l.visited, trail :: l.trails⟩

end Level

-- Extend a trail by each of some terminals. The witness is found if that reaches the cell.
def extend (t : Table) (cell : StateId × Terminal) (trail : Trail) :
    List Terminal → Level → Step Level (List Terminal)
  | [], level => .next level
  | x :: xs, level =>
    match consume t cell x (t.stateCount + trail.stack.length) trail.stack with
    | .reached => .done (x :: trail.word).reverse
    | .shifted stack => extend t cell trail xs (level.add ⟨stack, x :: trail.word⟩)
    | .stuck => extend t cell trail xs level

def extendAll (t : Table) (cell : StateId × Terminal) (alphabet : List Terminal) :
    List Trail → Level → Step Level (List Terminal)
  | [], level => .next level
  | trail :: trails, level =>
    match extend t cell trail alphabet level with
    | .done word => .done word
    | .next level => extendAll t cell alphabet trails level

def search (t : Table) (cell : StateId × Terminal) (alphabet : List Terminal) :
    Nat → List (StateId × Nat) → List Trail → Option (List Terminal)
  | 0, _, _ => none
  | _, _, [] => none
  | length + 1, visited, trails =>
    match extendAll t cell alphabet trails ⟨visited, []⟩ with
    | .done word => some word
    | .next level => search t cell alphabet length level.visited level.trails.reverse

end Witness

-- Strings are searched in the order of their length. A string is pursued only if the state and the depth of the
-- stack that it leads to have not been met before.
structure WitnessSearch where
  table : Table
  alphabet : TerminalSet
  maxLength : Nat := 64

namespace WitnessSearch

-- A shortest witness, over the alphabet and up to the maximal length.
def find (s : WitnessSearch) (state : StateId) (terminal : Terminal) : Option (List Terminal) :=
  Witness.search s.table (state, terminal) s.alphabet.toList s.maxLength [(.root, 1)] [⟨[.root], []⟩]

def findConflict (s : WitnessSearch) (c : Table.Conflict) : Option (Table.Conflict × List Terminal) :=
  (s.find c.state c.terminal).map fun word => (c, word)

-- The first conflict that has a witness.
def findAny (s : WitnessSearch) : Option (Table.Conflict × List Terminal) :=
  s.table.conflicts.findSome? s.findConflict

def events (s : WitnessSearch) (state : StateId) (terminal : Terminal) : List Event :=
  match s.find state terminal with
  | some _ => []
  | none =>
    let cell := "(" ++ Tagged.tag state ++ ", " ++ Tagged.tag terminal ++ ")"
    [⟨.debug, "no witness of length <= " ++ toString s.maxLength ++ " for " ++ cell⟩]

def anyEvents (s : WitnessSearch) : List Event :=
  let missing := s.table.conflicts.takeWhile fun c => (s.find c.state c.terminal).isNone
  missing.flatMap fun c => s.events c.state c.terminal

end WitnessSearch
end CanonicalLR
