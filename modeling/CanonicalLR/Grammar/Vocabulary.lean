import CanonicalLR.Symbol

namespace CanonicalLR

-- The names of the symbols. A symbol is identified by its place in the list of its kind; the first
-- terminal is the end of input and the first nonterminal the augmented start symbol.
structure Vocabulary where
  terminals : List String
  nonterminals : List String

namespace Vocabulary

def terminal? (v : Vocabulary) (name : String) : Option Terminal :=
  (v.terminals.findIdx? (· == name)).map .mk

def nonterminal? (v : Vocabulary) (name : String) : Option Nonterminal :=
  (v.nonterminals.findIdx? (· == name)).map .mk

def symbol? (v : Vocabulary) (name : String) : Option Symbol :=
  (v.terminal? name).map .terminal <|> (v.nonterminal? name).map .nonterminal

def terminalName (v : Vocabulary) (t : Terminal) : String :=
  v.terminals[t.index]?.getD "<unknown>"

def nonterminalName (v : Vocabulary) (n : Nonterminal) : String :=
  v.nonterminals[n.index]?.getD "<unknown>"

def symbolName (v : Vocabulary) : Symbol → String
  | .terminal t => v.terminalName t
  | .nonterminal n => v.nonterminalName n

-- Identifiers of terminals and nonterminals in the order of their declaration.

def terminalIds (v : Vocabulary) : List Terminal := (List.range v.terminals.length).map .mk

def nonterminalIds (v : Vocabulary) : List Nonterminal := (List.range v.nonterminals.length).map .mk

@[simp]
theorem mem_terminalIds {v : Vocabulary} {t : Terminal} :
    t ∈ v.terminalIds ↔ t.index < v.terminals.length := by
  cases t; simp [terminalIds]

@[simp]
theorem mem_nonterminalIds {v : Vocabulary} {n : Nonterminal} :
    n ∈ v.nonterminalIds ↔ n.index < v.nonterminals.length := by
  cases n; simp [nonterminalIds]

-- All terminals, then all nonterminals.
def symbols (v : Vocabulary) : List Symbol :=
  v.terminalIds.map .terminal ++ v.nonterminalIds.map .nonterminal

def Declares (v : Vocabulary) : Symbol → Prop
  | .terminal t => t.index < v.terminals.length
  | .nonterminal n => n.index < v.nonterminals.length

instance (v : Vocabulary) : DecidablePred v.Declares
  | .terminal t => inferInstanceAs <| Decidable (t.index < v.terminals.length)
  | .nonterminal n => inferInstanceAs <| Decidable (n.index < v.nonterminals.length)

theorem mem_symbols {v : Vocabulary} {s : Symbol} : s ∈ v.symbols ↔ v.Declares s := by
  cases s <;> simp [symbols, Declares]

end Vocabulary
end CanonicalLR
