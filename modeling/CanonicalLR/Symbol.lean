import CanonicalLR.Text.Numeral

namespace CanonicalLR

open Text (padded)

-- A tag is the name under which an identifier appears in traces and messages.
class Tagged (α : Type) where
  tag : α → String

instance : Tagged Nat where
  tag := toString

-- Identifiers are numbered from zero. Zero is reserved for the end of input, the augmented start symbol, its
-- production and the root state.
structure Terminal where
  index : Nat
  deriving DecidableEq

namespace Terminal

def eof : Terminal := ⟨0⟩

instance : Tagged Terminal where
  tag t := if t = eof then "T#EOF" else "T#" ++ padded 3 t.index

end Terminal

structure Nonterminal where
  index : Nat
  deriving DecidableEq

namespace Nonterminal

-- The augmented start symbol. It only ever derives the start symbol of the grammar.
def start : Nonterminal := ⟨0⟩

instance : Tagged Nonterminal where
  tag n := if n = start then "N#Start" else "N#" ++ padded 3 n.index

end Nonterminal

structure ProductionId where
  index : Nat
  deriving DecidableEq

namespace ProductionId

-- The augmenting production `$start := S`.
def accept : ProductionId := ⟨0⟩

instance : Tagged ProductionId where
  tag p := if p = accept then "P#Accept" else "P#" ++ padded 3 p.index

end ProductionId

inductive Symbol where
  | terminal (t : Terminal)
  | nonterminal (n : Nonterminal)
  deriving DecidableEq

namespace Symbol

instance : Coe Terminal Symbol := ⟨.terminal⟩
instance : Coe Nonterminal Symbol := ⟨.nonterminal⟩

instance : Tagged Symbol where
  tag
    | .terminal t => "T(" ++ Tagged.tag t ++ ")"
    | .nonterminal n => "N(" ++ Tagged.tag n ++ ")"

def nonterminal? : Symbol → Option Nonterminal
  | .terminal _ => none
  | .nonterminal n => some n

end Symbol

structure StateId where
  index : Nat
  deriving DecidableEq

namespace StateId

def root : StateId := ⟨0⟩

instance : Tagged StateId where
  tag s := "S#" ++ padded 3 s.index

-- The short numeral used in listings of automata and tables.
def numeral (s : StateId) : String := padded 2 s.index

end StateId

end CanonicalLR
