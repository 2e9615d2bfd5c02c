import CanonicalLR.Automaton.Basic
import CanonicalLR.Parser.Machine

namespace CanonicalLR

variable {V : Type}

-- Cells in the order of their first entry. No cell is empty and no cell holds an entry twice.
abbrev Cells (κ α : Type) := List (κ × List α)

namespace Cells

variable {κ α : Type} [DecidableEq κ]

def entries (cells : Cells κ α) (key : κ) : List α := (cells.lookup key).getD []

theorem entries_cons {c : κ × List α} {cells : Cells κ α} {k : κ} :
    entries (c :: cells) k = if k = c.1 then c.2 else cells.entries k := by
  obtain ⟨k', values⟩ := c
  by_cases h : k = k'
  case pos => simp [entries, h]
  case neg => simp [entries, List.lookup_cons, beq_false_of_ne h, h]

variable [DecidableEq α]

def register (key : κ) (value : α) : Cells κ α → Cells κ α
  | [] => [(key, [value])]
  | (k, values) :: cells =>
    if k = key then
      (k, if value ∈ values then values else values ++ [value]) :: cells
    else
      (k, values) :: register key value cells

def ofEntries (entries : List (κ × α)) : Cells κ α :=
  entries.foldl (fun cells (key, value) => cells.register key value) []

theorem entries_register {cells : Cells κ α} {key k : κ} {value : α} :
    (cells.register key value).entries k =
      if k = key then
        if value ∈ cells.entries key then cells.entries key else cells.entries key ++ [value]
      else
        cells.entries k := by
  induction cells
  case nil => simp only [register, entries_cons]; split <;> simp [entries]
  case cons c cells hi =>
    simp only [register]
    by_cases hc : c.1 = key
    case pos =>
      subst hc
      simp only [if_true, entries_cons]
      split <;> simp_all
    case neg =>
      have hk : key ≠ c.1 := fun e => hc e.symm
      simp only [hc, if_false, entries_cons, hi, hk]
      split
      case isTrue h => simp [h, hc]
      case isFalse h => rfl

end Cells

namespace Table

abbrev Action := CanonicalLR.Action StateId Nonterminal ProductionId

inductive ConflictKind where
  | shiftReduce
  | reduceReduce
  deriving DecidableEq

namespace ConflictKind

def text : ConflictKind → String
  | shiftReduce => "shift/reduce"
  | reduceReduce => "reduce/reduce"

-- Conflicts that do not involve a shift count as conflicts between reductions.
def ofActions (actions : List Action) : ConflictKind :=
  if actions.any (·.isShift) then shiftReduce else reduceReduce

end ConflictKind

structure Conflict where
  state : StateId
  terminal : Terminal
  kind : ConflictKind
  deriving DecidableEq

structure Row where
  actions : Cells Terminal Action
  gotos : Cells Nonterminal StateId
  deriving DecidableEq

namespace Row

-- The actions that one item of a state asks for. The augmenting production is not reduced; passing its
-- body is what accepts the input.
def itemActions (g : Grammar V) (s : State) (i : Item) : List (Terminal × Action) :=
  match i.next? g with
  | some (.terminal t) => (s.target? t).toList.map fun next => (t, .shift next)
  | some (.nonterminal _) => []
  | none =>
    if i.center.production = .accept then
      [(.eof, .accept)]
    else
      match g.production? i.center.production with
      | some p => i.lookaheads.toList.map fun t => (t, .reduce p.id p.head p.body.length)
      | none => []

def itemGotos (g : Grammar V) (s : State) (i : Item) : List (Nonterminal × StateId) :=
  match i.next? g with
  | some (.nonterminal n) => (s.target? n).toList.map fun next => (n, next)
  | _ => []

def ofState (g : Grammar V) (s : State) : Row where
  actions := .ofEntries (s.items.items.flatMap (itemActions g s))
  gotos := .ofEntries (s.items.items.flatMap (itemGotos g s))

end Row

end Table

-- The entries of a cell are in the order in which the items of the state ask for them, and the machine follows
-- the first one.
structure Table where
  rows : List Table.Row
  deriving DecidableEq

namespace Table

def ofAutomaton (g : Grammar V) (a : Automaton) : Table := ⟨a.states.map (Row.ofState g)⟩

def compile (g : Grammar V) : Except AutomatonError Table :=
  match Automaton.build g with
  | .ok a => .ok (ofAutomaton g a)
  | .error e => .error e

def stateCount (t : Table) : Nat := t.rows.length

def actions (t : Table) (state : StateId) (terminal : Terminal) : List Action :=
  match t.rows[state.index]? with
  | some row => row.actions.entries terminal
  | none => []

def gotos (t : Table) (state : StateId) (n : Nonterminal) : List StateId :=
  match t.rows[state.index]? with
  | some row => row.gotos.entries n
  | none => []

def action? (t : Table) (state : StateId) (terminal : Terminal) : Option Action :=
  (t.actions state terminal).head?

def goto? (t : Table) (state : StateId) (n : Nonterminal) : Option StateId :=
  (t.gotos state n).head?

def machine (t : Table) : Machine StateId Terminal Nonterminal ProductionId where
  initial := .root
  action := t.action?
  goto := t.goto?

-- All cells with an action, state by state.
def actionCells (t : Table) : List (StateId × Terminal × List Action) :=
  t.rows.zipIdx.flatMap fun (row, i) =>
    row.actions.map fun (terminal, actions) => (⟨i⟩, terminal, actions)

def conflicts (t : Table) : List Conflict :=
  (t.actionCells.filter fun (_, _, actions) => 1 < actions.length).map
    fun (state, terminal, actions) => ⟨state, terminal, .ofActions actions⟩

def events (g : Grammar V) (t : Table) : List Event :=
  let conflicts := t.conflicts
  let counts := toString t.stateCount ++ " states, " ++ toString conflicts.length ++ " conflicts"
  ⟨.debug, "parse table: " ++ counts⟩ :: conflicts.map fun c =>
    let cell := "(" ++ Tagged.tag c.state ++ ", " ++ g.terminalName c.terminal ++ ")"
    ⟨.debug, c.kind.text ++ " conflict at " ++ cell⟩

def actionText (g : Grammar V) : Action → String
  | .shift next => "shift(" ++ next.numeral ++ ")"
  | .accept => "accept"
  | .reduce id _ _ =>
    let production :=
      match g.production? id with
      | some p => g.productionText p
      | none => Tagged.tag id
    "reduce(" ++ production ++ ")"

def rowText (g : Grammar V) (id : StateId) (row : Row) : String :=
  let actions := row.actions.map fun (t, actions) =>
    "- " ++ g.terminalName t ++ " => " ++ ", ".intercalate (actions.map (actionText g)) ++
      if 1 < actions.length then "  (conflict)" else ""
  let gotos := row.gotos.flatMap fun (n, targets) =>
    targets.map fun next => "- " ++ g.nonterminalName n ++ " => goto(" ++ next.numeral ++ ")"
  String.join <| List.map (· ++ "\n") <|
    ("#### State " ++ id.numeral) :: "## actions" :: actions ++ "## gotos" :: gotos

-- States without a cell are not listed.
def text (g : Grammar V) (t : Table) : String :=
  let listed := t.rows.zipIdx.filter fun (row, _) => ¬ (row.actions.isEmpty ∧ row.gotos.isEmpty)
  "\n".intercalate <| listed.map fun (row, i) => rowText g ⟨i⟩ row

end Table
end CanonicalLR
