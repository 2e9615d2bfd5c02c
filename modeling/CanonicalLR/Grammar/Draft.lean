import CanonicalLR.Event
import CanonicalLR.Grammar.Basic

namespace CanonicalLR

inductive GrammarError where
  | emptyName
  | duplicateSymbol (name : String)
  | duplicateProduction (head : String)
  | unknownSymbol (symbol : Symbol)
  | attributeSlot (slot length : Nat)
  | inheritedOnHead
  | inheritedOnTerminal (position : Nat)
  | emptyNonterminals
  | augmentation (count : Nat)
  | custom (message : String)

namespace GrammarError

def message : GrammarError → String
  | emptyName => "symbol names must not be empty"
  | duplicateSymbol name => "the symbol `" ++ name ++ "' has already been declared"
  | duplicateProduction head => "duplicate production rule detected for `" ++ head ++ "'"
  | unknownSymbol symbol => "the symbol " ++ Tagged.tag symbol ++ " is not declared in this grammar"
  | attributeSlot slot length =>
    "attribute slot " ++ toString slot ++ " is out of range for a body of " ++ toString length ++ " symbols"
  | inheritedOnHead => "inherited rules cannot be attached to the head"
  | inheritedOnTerminal position =>
    "inherited rule attached to the terminal at position " ++ toString position
  | emptyNonterminals => "empty nonterminal symbols"
  | augmentation count =>
    "the augmented start symbol must have exactly one production, found " ++ toString count
  | custom message => "Other error: " ++ message

end GrammarError

-- One step of authoring a grammar.
inductive Declaration (V : Type) where
  | terminal (name : String)
  | nonterminal (name : String)
  | production (head : Nonterminal) (body : List Symbol) (attributes : Attributes V)
  | start (symbol : Nonterminal)

-- What a successful declaration introduces.
inductive Declared where
  | terminal (t : Terminal)
  | nonterminal (n : Nonterminal)
  | production (id : ProductionId)
  | start
  deriving DecidableEq

structure Draft (V : Type) extends Vocabulary where
  productions : List (Production V)
  start : Option Nonterminal

namespace Draft

variable {V : Type}

-- The augmenting production is there from the beginning, so that its identifier is the first one.
-- Its body is filled in once the start symbol is known.
def empty : Draft V where
  terminals := ["$eof"]
  nonterminals := ["$start"]
  productions := [⟨.accept, .start, [], .none⟩]
  start := none

-- Only the augmenting production speaks of `$start`, so bodies and the start symbol must not.
def Usable (d : Draft V) (s : Symbol) : Prop := d.Declares s ∧ s ≠ .nonterminal .start

instance (d : Draft V) : DecidablePred d.Usable :=
  fun s => inferInstanceAs <| Decidable (d.Declares s ∧ s ≠ .nonterminal .start)

-- Terminals and nonterminals share one name space.
def checkName (d : Draft V) (name : String) : Except GrammarError Unit :=
  if name = "" then
    .error .emptyName
  else if name ∈ d.terminals ∨ name ∈ d.nonterminals then
    .error (.duplicateSymbol name)
  else
    .ok ()

def addTerminal (d : Draft V) (name : String) : Except GrammarError (Terminal × Draft V) := do
  d.checkName name
  return (⟨d.terminals.length⟩, { d with terminals := d.terminals ++ [name] })

def addNonterminal (d : Draft V) (name : String) : Except GrammarError (Nonterminal × Draft V) := do
  d.checkName name
  return (⟨d.nonterminals.length⟩, { d with nonterminals := d.nonterminals ++ [name] })

def checkHead (d : Draft V) (head : Nonterminal) : Except GrammarError Unit :=
  if d.Declares head then .ok () else .error (.unknownSymbol head)

def checkBody (d : Draft V) (body : List Symbol) : Except GrammarError Unit :=
  match body.find? (¬ d.Usable ·) with
  | some symbol => .error (.unknownSymbol symbol)
  | none => .ok ()

def checkNew (d : Draft V) (head : Nonterminal) (body : List Symbol) : Except GrammarError Unit :=
  if d.productions.any fun p => p.head = head ∧ p.body = body then
    .error (.duplicateProduction <| d.nonterminalName head)
  else
    .ok ()

-- A terminal takes its value from a token and inherits nothing.
def fitAttributes (body : List Symbol) (a : Attributes V) : Except GrammarError (Attributes V) :=
  match a.fit body.length with
  | .error .inheritedOnHead => .error .inheritedOnHead
  | .error (.beyondBody slot) => .error (.attributeSlot slot body.length)
  | .ok fitted =>
    let onTerminal i := body[i - 1]?.any fun | .terminal _ => true | .nonterminal _ => false
    match fitted.inheritedPositions.find? onTerminal with
    | some position => .error (.inheritedOnTerminal position)
    | none => .ok fitted

def addProduction (d : Draft V) (head : Nonterminal) (body : List Symbol) (a : Attributes V) :
    Except GrammarError (ProductionId × Draft V) := do
  d.checkHead head
  d.checkBody body
  d.checkNew head body
  let fitted ← fitAttributes body a
  let id : ProductionId := ⟨d.productions.length⟩
  return (id, { d with productions := d.productions ++ [⟨id, head, body, fitted⟩] })

def setStart (d : Draft V) (symbol : Nonterminal) : Except GrammarError (Draft V) :=
  if d.Usable symbol then .ok { d with start := some symbol } else .error (.unknownSymbol symbol)

def declare (d : Draft V) : Declaration V → Except GrammarError (Declared × Draft V)
  | .terminal name => do
    let (t, d) ← d.addTerminal name
    return (.terminal t, d)
  | .nonterminal name => do
    let (n, d) ← d.addNonterminal name
    return (.nonterminal n, d)
  | .production head body attributes => do
    let (id, d) ← d.addProduction head body attributes
    return (.production id, d)
  | .start symbol => do
    let d ← d.setStart symbol
    return (.start, d)

-- Carry on after refused declarations. They leave no trace in the draft.
def attempt (d : Draft V) (x : Declaration V) : Draft V :=
  match d.declare x with
  | .ok (_, d) => d
  | .error _ => d

-- Without an explicit start symbol, the first declared nonterminal is used.
def startSymbol (d : Draft V) : Except GrammarError Nonterminal :=
  match d.start with
  | some n => .ok n
  | none => if 1 < d.nonterminals.length then .ok ⟨1⟩ else .error .emptyNonterminals

def finish (d : Draft V) : Except GrammarError (Grammar V) := do
  let start ← d.startSymbol
  let productions := d.productions.map fun p =>
    if p.id = .accept then { p with body := [.nonterminal start] } else p
  let count := (productions.filter (·.head = .start)).length
  if count = 1 then
    return ⟨d.toVocabulary, productions, start⟩
  else
    throw (.augmentation count)

end Draft

namespace Grammar

variable {V : Type}

-- The grammar of a list of declarations, none of which may be refused.
def define (declarations : List (Declaration V)) : Except GrammarError (Grammar V) := do
  let draft ← declarations.foldlM (fun d x => Prod.snd <$> d.declare x) Draft.empty
  draft.finish

-- Nonterminals that derive nothing are legal, but hardly intended.
def warnings (g : Grammar V) : List Event :=
  let idle := g.nonterminalIds.filter fun n => n ≠ .start ∧ (g.productionsOf n).isEmpty
  idle.map fun n => ⟨.warn, "nonterminal `" ++ g.nonterminalName n ++ "' has no productions"⟩

end Grammar
end CanonicalLR
