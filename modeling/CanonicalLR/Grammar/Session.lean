import CanonicalLR.Grammar.Draft

namespace CanonicalLR

-- Entries in the order in which their keys were filed first.
abbrev Registry (κ α : Type) := List (κ × α)

namespace Registry

variable {κ α : Type}

def keys (r : Registry κ α) : List κ := r.map Prod.fst

def values (r : Registry κ α) : List α := r.map Prod.snd

variable [DecidableEq κ]

-- An entry under a key that is there already is replaced.
def file (key : κ) (value : α) : Registry κ α → Registry κ α
  | [] => [(key, value)]
  | (k, v) :: r => if k = key then (k, value) :: r else (k, v) :: file key value r

theorem mem_keys_file {r : Registry κ α} {key k : κ} {value : α} :
    k ∈ (r.file key value).keys ↔ k ∈ r.keys ∨ k = key := by
  induction r
  case nil => simp [file, keys]
  case cons e r hi =>
    simp only [keys] at hi
    simp only [file, keys]
    split <;> grind

theorem file_of_notMem {r : Registry κ α} {key : κ} {value : α} (h : key ∉ r.keys) :
    r.file key value = r ++ [(key, value)] := by
  induction r
  case nil => rfl
  case cons e r hi =>
    have ⟨he, hr⟩ : key ≠ e.1 ∧ key ∉ keys r := by simpa [keys] using h
    rw [file, if_neg (Ne.symm he), hi hr, List.cons_append]

end Registry

-- A symbol that knows under which identifier it is filed.
structure Named (κ : Type) where
  id : κ
  name : String

-- Calls change a session in place. What a call has changed before it is refused stays changed, so it is up to
-- the calls to check first. The counters come back to the reserved numbers when all others have been handed out.
structure Session (V : Type) where
  terminals : Registry Terminal (Named Terminal)
  nonterminals : Registry Nonterminal (Named Nonterminal)
  productions : Registry ProductionId (Production V)
  start : Option Nonterminal
  nextTerminal : UInt16
  nextNonterminal : UInt16
  nextProduction : UInt16

namespace Session

variable {V α : Type}

def initial : Session V where
  terminals := [(.eof, ⟨.eof, "$eof"⟩)]
  nonterminals := [(.start, ⟨.start, "$start"⟩)]
  productions := [(.accept, ⟨.accept, .start, [], .none⟩)]
  start := none
  nextTerminal := 1
  nextNonterminal := 1
  nextProduction := 1

def vocabulary (s : Session V) : Vocabulary where
  terminals := s.terminals.values.map Named.name
  nonterminals := s.nonterminals.values.map Named.name

def Declares (s : Session V) : Symbol → Prop
  | .terminal t => t ∈ s.terminals.keys
  | .nonterminal n => n ∈ s.nonterminals.keys

instance (s : Session V) : DecidablePred s.Declares
  | .terminal t => inferInstanceAs <| Decidable (t ∈ s.terminals.keys)
  | .nonterminal n => inferInstanceAs <| Decidable (n ∈ s.nonterminals.keys)

def Usable (s : Session V) (x : Symbol) : Prop := s.Declares x ∧ x ≠ .nonterminal .start

instance (s : Session V) : DecidablePred s.Usable :=
  fun x => inferInstanceAs <| Decidable (s.Declares x ∧ x ≠ .nonterminal .start)

def checkName (name : String) (s : Session V) : Except GrammarError Unit :=
  if name = "" then
    .error .emptyName
  else if name ∈ s.vocabulary.terminals ∨ name ∈ s.vocabulary.nonterminals then
    .error (.duplicateSymbol name)
  else
    .ok ()

def checkHead (head : Nonterminal) (s : Session V) : Except GrammarError Unit :=
  if s.Declares head then .ok () else .error (.unknownSymbol head)

def checkBody (body : List Symbol) (s : Session V) : Except GrammarError Unit :=
  match body.find? (¬ s.Usable ·) with
  | some symbol => .error (.unknownSymbol symbol)
  | none => .ok ()

def checkNew (head : Nonterminal) (body : List Symbol) (s : Session V) : Except GrammarError Unit :=
  if s.productions.values.any fun p => p.head = head ∧ p.body = body then
    .error (.duplicateProduction <| ((s.nonterminals.lookup head).map Named.name).getD "<unknown>")
  else
    .ok ()

def checkStart (symbol : Nonterminal) (s : Session V) : Except GrammarError Unit :=
  if s.Usable symbol then .ok () else .error (.unknownSymbol symbol)

-- A call leaves a session behind even if it is refused.
abbrev Call (V α : Type) := ExceptT GrammarError (StateM (Session V)) α

def Call.perform (c : Call V α) (s : Session V) : Except GrammarError α × Session V := c.run s

-- Ask the session for something, without a change.
def consult (f : Session V → Except GrammarError α) : Call V α := ExceptT.mk (f <$> get)

def freshTerminal : Call V Terminal :=
  modifyGet fun s => (⟨s.nextTerminal.toNat⟩, { s with nextTerminal := s.nextTerminal + 1 })

def freshNonterminal : Call V Nonterminal :=
  modifyGet fun s => (⟨s.nextNonterminal.toNat⟩, { s with nextNonterminal := s.nextNonterminal + 1 })

def freshProduction : Call V ProductionId :=
  modifyGet fun s => (⟨s.nextProduction.toNat⟩, { s with nextProduction := s.nextProduction + 1 })

def declareTerminal (name : String) : Call V Terminal := do
  consult (checkName name)
  let t ← freshTerminal
  modify fun s => { s with terminals := s.terminals.file t ⟨t, name⟩ }
  return t

def declareNonterminal (name : String) : Call V Nonterminal := do
  consult (checkName name)
  let n ← freshNonterminal
  modify fun s => { s with nonterminals := s.nonterminals.file n ⟨n, name⟩ }
  return n

def declareProduction (head : Nonterminal) (body : List Symbol) (a : Attributes V) :
    Call V ProductionId := do
  consult (checkHead head)
  consult (checkBody body)
  consult (checkNew head body)
  let fitted ← consult fun _ => Draft.fitAttributes body a
  let id ← freshProduction
  modify fun s => { s with productions := s.productions.file id ⟨id, head, body, fitted⟩ }
  return id

def declareStart (symbol : Nonterminal) : Call V Unit := do
  consult (checkStart symbol)
  modify fun s => { s with start := some symbol }

def declare : Declaration V → Call V Declared
  | .terminal name => .terminal <$> declareTerminal name
  | .nonterminal name => .nonterminal <$> declareNonterminal name
  | .production head body a => .production <$> declareProduction head body a
  | .start symbol => (fun _ => .start) <$> declareStart symbol

-- The answers to a sequence of calls, whether they are refused or not.
def declareAll : List (Declaration V) → StateM (Session V) (List (Except GrammarError Declared))
  | [] => return []
  | x :: xs => do
    let answer ← (declare x).run
    let answers ← declareAll xs
    return answer :: answers

def startSymbol (s : Session V) : Except GrammarError Nonterminal :=
  match s.start with
  | some n => .ok n
  | none =>
    match s.nonterminals.keys.find? (· ≠ .start) with
    | some n => .ok n
    | none => .error .emptyNonterminals

def finish (s : Session V) : Except GrammarError (Grammar V) := do
  let start ← s.startSymbol
  let productions := s.productions.map fun e =>
    if e.1 = .accept then { e.2 with body := [.nonterminal start] } else e.2
  let count := (productions.filter (·.head = .start)).length
  if count = 1 then
    return ⟨s.vocabulary, productions, start⟩
  else
    throw (.augmentation count)

-- The answers to some calls, and the grammar that comes of them.
def author (xs : List (Declaration V)) :
    List (Except GrammarError Declared) × Except GrammarError (Grammar V) :=
  let (answers, s) := (declareAll xs).run initial
  (answers, s.finish)

end Session
end CanonicalLR
