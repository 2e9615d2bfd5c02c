import CanonicalLR.Event
import CanonicalLR.Automaton.Closure

namespace CanonicalLR

variable {V : Type}

structure State where
  kernel : ItemSet
  -- The closure of the kernel.
  items : ItemSet
  transitions : List (Symbol × StateId)

namespace State

def target? (s : State) (symbol : Symbol) : Option StateId := s.transitions.lookup symbol

-- A transition that exists keeps its place.
def setTransition (s : State) (symbol : Symbol) (target : StateId) : State :=
  { s with
    transitions :=
      if s.transitions.any (·.1 = symbol) then
        s.transitions.map fun t => if t.1 = symbol then (symbol, target) else t
      else
        s.transitions ++ [(symbol, target)] }

def removeTransition (s : State) (symbol : Symbol) : State :=
  { s with transitions := s.transitions.filter (·.1 ≠ symbol) }

end State

-- States are numbered in the order of their discovery: the states that are reached from one state and have not
-- been met before come before those that are reached from the next state.
structure Automaton where
  states : List State

namespace Automaton

def state? (a : Automaton) (id : StateId) : Option State := a.states[id.index]?

-- Edit the transition of a state on a symbol: set it to a target, or remove it.
def edit (a : Automaton) (id : StateId) (symbol : Symbol) (target? : Option StateId) : Automaton :=
  { a with
    states := a.states.modify id.index fun s =>
      match target? with
      | some target => s.setTransition symbol target
      | none => s.removeTransition symbol }

end Automaton

namespace ItemSet

-- The declared symbols that follow the marker in some item.
def outgoing (g : Grammar V) (s : ItemSet) : List Symbol :=
  let next := s.items.filterMap (·.next? g)
  g.symbols.filter (· ∈ next)

theorem mem_outgoing {g : Grammar V} {s : ItemSet} {x : Symbol} :
    x ∈ s.outgoing g ↔ g.Declares x ∧ ∃ i ∈ s.items, i.next? g = some x := by
  simp [outgoing, Vocabulary.mem_symbols]

end ItemSet

-- A state whose transitions are not known yet.
structure Core where
  kernel : ItemSet
  items : ItemSet

-- States are explored in the order of their discovery, so the transitions that are known belong to
-- the first cores.
structure Exploration where
  cores : List Core
  transitions : List (List (Symbol × StateId))

namespace Exploration

def locate (cores : List Core) (kernel : ItemSet) : Option StateId :=
  (cores.findIdx? (·.kernel = kernel)).map .mk

-- How many states there are numbers for.
def capacity : Nat := UInt32.size

-- The state of a kernel, which is discovered if there is none yet.
def reach (g : Grammar V) (firsts : FirstSets) (kernel : ItemSet) (cores : List Core) :
    Except AutomatonError (StateId × List Core) :=
  match locate cores kernel with
  | some id => .ok (id, cores)
  | none =>
    if cores.length < capacity then
      match kernel.closure g firsts with
      | .error e => .error e
      | .ok items => .ok (⟨cores.length⟩, cores ++ [⟨kernel, items⟩])
    else
      .error .tooManyStates

-- The transitions from an item set on a list of symbols.
def follow (g : Grammar V) (firsts : FirstSets) (items : ItemSet) :
    List Symbol → List Core → Except AutomatonError (List (Symbol × StateId) × List Core)
  | [], cores => .ok ([], cores)
  | x :: xs, cores =>
    match reach g firsts (items.advance g x) cores with
    | .error e => .error e
    | .ok (target, cores) =>
      match follow g firsts items xs cores with
      | .error e => .error e
      | .ok (transitions, cores) => .ok ((x, target) :: transitions, cores)

def step (g : Grammar V) (firsts : FirstSets) (e : Exploration) :
    Step Exploration (Except AutomatonError Automaton) :=
  match e.cores[e.transitions.length]? with
  | none =>
    .done <| .ok ⟨e.cores.zipWith (fun core => .mk core.kernel core.items) e.transitions⟩
  | some core =>
    match follow g firsts core.items (core.items.outgoing g) e.cores with
    | .error err => .done (.error err)
    | .ok (transitions, cores) => .next ⟨cores, e.transitions ++ [transitions]⟩

-- The centers of a grammar.
def centers (g : Grammar V) : List Center :=
  g.productions.flatMap fun p => (List.range (p.body.length + 1)).map (⟨p.id, .ofNat ·⟩)

-- A kernel is determined by the presence of each center and by which terminals are its lookaheads: the
-- declared ones, and the end of input. A step explores one kernel.
def limit (g : Grammar V) : Nat := 1 <<< ((g.terminals.length + 2) * (centers g).length) + 1

end Exploration

namespace Automaton

def rootKernel : ItemSet := .ofList [⟨⟨.accept, 0⟩, .singleton .eof⟩]

def build (g : Grammar V) : Except AutomatonError Automaton :=
  let count := (g.productionsOf .start).length
  if count = 1 then
    let firsts := g.firstSets
    match rootKernel.closure g firsts with
    | .error e => .error e
    | .ok items =>
      (Step.run (Exploration.step g firsts) (Exploration.limit g) ⟨[⟨rootKernel, items⟩], []⟩).getD
        (.error .unfinished)
  else
    .error (.notAugmented count)

def events (a : Automaton) : List Event :=
  [⟨.debug, "LR(1) automaton: " ++ toString a.states.length ++ " states"⟩]

def stateText (g : Grammar V) (id : StateId) (s : State) : String :=
  String.join <| List.map (· ++ "\n") <|
    ("#### State " ++ id.numeral) ::
    "## items" :: s.items.items.map (fun i => "- " ++ i.text g) ++
    "## transitions" :: s.transitions.map fun (x, target) =>
      "- " ++ g.symbolName x ++ " => " ++ target.numeral

def text (g : Grammar V) (a : Automaton) : String :=
  "\n".intercalate <| a.states.zipIdx.map fun (s, i) => stateText g ⟨i⟩ s

end Automaton
end CanonicalLR
