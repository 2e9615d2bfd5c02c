import CanonicalLR.Grammar.Vocabulary
import CanonicalLR.Attribute

namespace CanonicalLR

structure Production (V : Type) where
  id : ProductionId
  head : Nonterminal
  body : List Symbol
  attributes : Attributes V

structure Grammar (V : Type) extends Vocabulary where
  productions : List (Production V)
  startSymbol : Nonterminal

namespace Grammar

variable {V : Type}

-- A production is found by its identifier and not by its place, since productions can be removed.
def production? (g : Grammar V) (id : ProductionId) : Option (Production V) :=
  g.productions.find? (·.id = id)

theorem production?_mem {g : Grammar V} {id : ProductionId} {p : Production V}
    (h : g.production? id = some p) : p ∈ g.productions :=
  List.mem_of_find?_eq_some h

theorem production?_id {g : Grammar V} {id : ProductionId} {p : Production V}
    (h : g.production? id = some p) : p.id = id := by
  simpa using List.find?_some h

def productionsOf (g : Grammar V) (head : Nonterminal) : List (Production V) :=
  g.productions.filter (·.head = head)

theorem mem_productionsOf {g : Grammar V} {n : Nonterminal} {p : Production V} :
    p ∈ g.productionsOf n ↔ p ∈ g.productions ∧ p.head = n := by
  simp [productionsOf]

def remove (g : Grammar V) (ids : List ProductionId) : Grammar V :=
  { g with productions := g.productions.filter (·.id ∉ ids) }

-- `HEAD := A b C`, where the empty body is written as ε.
def productionText (g : Grammar V) (p : Production V) : String :=
  let body := if p.body.isEmpty then ["ε"] else p.body.map g.symbolName
  " ".intercalate (g.nonterminalName p.head :: ":=" :: body)

def text (g : Grammar V) : String :=
  let nonterminal n :=
    g.nonterminalName n ++ if n = g.startSymbol then " (start)" else ""
  String.join <| List.map (· ++ "\n") <|
    "## terminals:" :: g.terminals ++
    "\n## nonterminals:" :: g.nonterminalIds.map nonterminal ++
    "\n## productions:" :: g.productions.map g.productionText

end Grammar
end CanonicalLR
