import CanonicalLR.Proofs.Arithmetic.LeftRecursive
import CanonicalLR.Proofs.Bounds
import CanonicalLR.Proofs.Calculator.Language

namespace CanonicalLR.Calculator

def Operator.terminal : Operator → Terminal
  | add => plus
  | sub => minus
  | mul => star
  | div => slash

namespace Level

def symbol : Level → Nonterminal
  | chain .sum => expr
  | chain .product => term
  | factor => Calculator.factor

theorem symbol_inj {l m : Level} (h : l.symbol = m.symbol) : l = m := by
  rcases l with (_ | _) | _ <;> rcases m with (_ | _) | _ <;>
    simp_all [symbol, expr, term, Calculator.factor]

theorem symbol_ne {l : Level} : l.symbol ≠ .start := by
  rcases l with (_ | _) | _ <;> simp [symbol, expr, term, Calculator.factor, Nonterminal.start]

end Level

-- A synthesized expression, fitted to a body of the given length.
def fitted (e : StateM (Args Value) Expr) (length : Nat) : Attributes Value :=
  ⟨some (do return .expr (← e) : StateM (Args Value) Value) :: List.replicate length none, false⟩

def applied (op : Operator) : Attributes Value := fitted (do return .binary op (← take 1) (← take 3)) 3

def negated : Attributes Value := fitted (do return .neg (← take 2)) 2

def arithmetic : Grammar Value where
  terminals := ["$eof", "LPAREN", "RPAREN", "PLUS", "MINUS", "STAR", "SLASH", "NUM"]
  nonterminals := ["$start", "EXPR", "TERM", "FACTOR"]
  productions := [
    ⟨.accept, .start, [.nonterminal expr], .none⟩,
    ⟨⟨1⟩, expr, [expr, plus, term], applied .add⟩,
    ⟨⟨2⟩, expr, [expr, minus, term], applied .sub⟩,
    ⟨⟨3⟩, expr, [term], fitted (take 1) 1⟩,
    ⟨⟨4⟩, term, [term, star, factor], applied .mul⟩,
    ⟨⟨5⟩, term, [term, slash, factor], applied .div⟩,
    ⟨⟨6⟩, term, [factor], fitted (take 1) 1⟩,
    ⟨⟨7⟩, factor, [num], fitted (take 1) 1⟩,
    ⟨⟨8⟩, factor, [lparen, expr, rparen], fitted (take 2) 3⟩,
    ⟨⟨9⟩, factor, [minus, factor], negated⟩]
  startSymbol := expr

theorem define_eq : Grammar.define declarations = .ok arithmetic := by rfl

theorem augmented : arithmetic.Augmented := Grammar.augmented_of_define define_eq

theorem short : arithmetic.Short := by decide

def operands : TerminalSet := .ofList [lparen, minus, num]

def firsts (sets : List TerminalSet) : FirstSets := ⟨8, [], sets⟩

-- The sets after each round. Their limit is far too large for the rounds to be run with it.
theorem firstSets_eq : arithmetic.firstSets = firsts (List.replicate 4 operands) := by
  refine Grammar.firstSets_eq_of_reaches (k := 4) ?_ (by decide +kernel) (by decide +kernel)
  exact
    .stabilize (b := firsts [∅, ∅, ∅, operands]) (by decide +kernel) (by decide +kernel) <|
    .stabilize (b := firsts [∅, ∅, operands, operands]) (by decide +kernel) (by decide +kernel) <|
    .stabilize (b := firsts [∅, operands, operands, operands]) (by decide +kernel) (by decide +kernel) <|
    .stabilize (by decide +kernel) (by decide +kernel) <| .refl _

theorem exists_compile : ∃ table, Table.compile arithmetic = .ok table ∧ table.conflicts = [] :=
  Table.exists_compile_of_firstSets firstSets_eq (by decide +kernel) (by decide +kernel)

theorem ofDeclarations_eq {declarations : List (Declaration Value)} {g : Grammar Value} {table : Table}
    (hg : Grammar.define declarations = .ok g) (ht : Table.compile g = .ok table)
    (hc : table.conflicts = []) : ofDeclarations declarations = .ok ⟨g, table⟩ := by
  simp [ofDeclarations, hg, ht, hc]

inductive Pattern : Nonterminal → List Symbol → Attributes Value → Prop
  | accept : Pattern .start [.nonterminal (Level.symbol Chain.sum)] .none
  | binary (op : Operator) : Pattern (Level.symbol op.chain)
    [Level.symbol op.chain, op.terminal, op.chain.operand.symbol] (applied op)
  | single (c : Chain) : Pattern (Level.symbol c) [.nonterminal c.operand.symbol] (fitted (take 1) 1)
  | number : Pattern (Level.symbol .factor) [.terminal num] (fitted (take 1) 1)
  | enclosed : Pattern (Level.symbol .factor) [lparen, Level.symbol Chain.sum, rparen] (fitted (take 2) 3)
  | negated : Pattern (Level.symbol .factor) [minus, Level.symbol .factor] negated

theorem pattern {p : Production Value} (h : p ∈ arithmetic.productions) :
    Pattern p.head p.body p.attributes := by
  simp only [arithmetic, List.mem_cons, List.not_mem_nil, or_false] at h
  rcases h with rfl | rfl | rfl | rfl | rfl | rfl | rfl | rfl | rfl | rfl
  · exact .accept
  · exact .binary .add
  · exact .binary .sub
  · exact .single .sum
  · exact .binary .mul
  · exact .binary .div
  · exact .single .product
  · exact .number
  · exact .enclosed
  · exact .negated

theorem Pattern.exists_mem {n : Nonterminal} {body : List Symbol} {a : Attributes Value}
    (h : Pattern n body a) : ∃ id, ⟨id, n, body, a⟩ ∈ arithmetic.productions := by
  cases h
  case accept => exact ⟨.accept, List.mem_of_getElem? (i := 0) rfl⟩
  case binary op =>
    cases op
    case add => exact ⟨⟨1⟩, List.mem_of_getElem? (i := 1) rfl⟩
    case sub => exact ⟨⟨2⟩, List.mem_of_getElem? (i := 2) rfl⟩
    case mul => exact ⟨⟨4⟩, List.mem_of_getElem? (i := 4) rfl⟩
    case div => exact ⟨⟨5⟩, List.mem_of_getElem? (i := 5) rfl⟩
  case single c =>
    cases c
    case sum => exact ⟨⟨3⟩, List.mem_of_getElem? (i := 3) rfl⟩
    case product => exact ⟨⟨6⟩, List.mem_of_getElem? (i := 6) rfl⟩
  case number => exact ⟨⟨7⟩, List.mem_of_getElem? (i := 7) rfl⟩
  case enclosed => exact ⟨⟨8⟩, List.mem_of_getElem? (i := 8) rfl⟩
  case negated => exact ⟨⟨9⟩, List.mem_of_getElem? (i := 9) rfl⟩

theorem sAttributed {p : Production Value} (h : p ∈ arithmetic.productions) : p.attributes.isSAttributed := by
  revert p
  decide

-- The trees of each level.
inductive Shape : Level → Tree → Prop
  | number {id : ProductionId} {n : Nonterminal} : Shape .factor (.node id n [.leaf num])
  | enclosed {id : ProductionId} {n : Nonterminal} {t : Tree} (rec : Shape Chain.sum t) :
    Shape .factor (.node id n [.leaf lparen, t, .leaf rparen])
  | negated {id : ProductionId} {n : Nonterminal} {t : Tree} (rec : Shape .factor t) :
    Shape .factor (.node id n [.leaf minus, t])
  | single {id : ProductionId} {n : Nonterminal} {c : Chain} {t : Tree} (rec : Shape c.operand t) :
    Shape c (.node id n [t])
  | binary {id : ProductionId} {n : Nonterminal} {op : Operator} {t u : Tree} (left : Shape op.chain t)
    (right : Shape op.chain.operand u) : Shape op.chain (.node id n [t, .leaf op.terminal, u])

theorem Shape.of_wellFormed {t : Tree} {level : Level} (h : t.WellFormed arithmetic)
    (hs : t.symbol = .nonterminal level.symbol) : Shape level t := by
  induction h generalizing level
  case leaf => contradiction
  case node p ts hp hb hts hi =>
    have hpattern := pattern (Grammar.production?_mem hp)
    have hlevel : p.head = level.symbol := Symbol.nonterminal.inj hs
    rw [hb, hlevel] at hpattern
    generalize hn : level.symbol = n, hbody : ts.map Tree.symbol = body, p.attributes = a at hpattern
    cases hpattern
    case accept => exact absurd hn Level.symbol_ne
    case binary op =>
      obtain rfl := Level.symbol_inj hn
      obtain ⟨t, _, rfl, ht, hrest⟩ := List.map_eq_cons_iff.mp hbody
      obtain ⟨l, _, rfl, hl, hrest⟩ := List.map_eq_cons_iff.mp hrest
      obtain ⟨u, rfl, hu⟩ := List.map_eq_singleton_iff.mp hrest
      obtain rfl := Tree.eq_leaf_of_symbol hl
      exact .binary (hi t (by simp) ht) (hi u (by simp) hu)
    case single c =>
      obtain rfl := Level.symbol_inj hn
      obtain ⟨t, rfl, ht⟩ := List.map_eq_singleton_iff.mp hbody
      exact .single (hi t (by simp) ht)
    case number =>
      obtain rfl := Level.symbol_inj hn
      obtain ⟨l, rfl, hl⟩ := List.map_eq_singleton_iff.mp hbody
      obtain rfl := Tree.eq_leaf_of_symbol hl
      exact .number
    case enclosed =>
      obtain rfl := Level.symbol_inj hn
      obtain ⟨t, rfl, ht⟩ := Example.Arithmetic.eq_of_bracketed hbody
      exact .enclosed (hi t (by simp) ht)
    case negated =>
      obtain rfl := Level.symbol_inj hn
      obtain ⟨l, _, rfl, hl, hrest⟩ := List.map_eq_cons_iff.mp hbody
      obtain ⟨t, rfl, ht⟩ := List.map_eq_singleton_iff.mp hrest
      obtain rfl := Tree.eq_leaf_of_symbol hl
      exact .negated (hi t (by simp) ht)

-- How many nodes a tree of a level may have less than three for each leaf.
def Level.slack : Level → Nat
  | chain .sum => 0
  | chain .product => 1
  | factor => 2

theorem Level.slack_operand (c : Chain) : Level.slack c + 1 = c.operand.slack := by
  cases c <;> rfl

theorem Shape.length_operations_le {t : Tree} {level : Level} (h : Shape level t) :
    t.operations.length + level.slack ≤ 4 * t.yield.length := by
  induction h
  case number => exact Nat.le_refl _
  case enclosed hi =>
    simp [Tree.operations, Tree.operationsAll, Tree.yield, Tree.yieldAll, Level.slack] at hi ⊢
    omega
  case negated hi =>
    simp [Tree.operations, Tree.operationsAll, Tree.yield, Tree.yieldAll, Level.slack] at hi ⊢
    omega
  case single c _ _ hi =>
    have := Level.slack_operand c
    simp [Tree.operations, Tree.operationsAll, Tree.yield, Tree.yieldAll] at hi ⊢
    omega
  case binary op _ _ _ _ hi hj =>
    have := Level.slack_operand op.chain
    simp [Tree.operations, Tree.operationsAll, Tree.yield, Tree.yieldAll] at hi hj ⊢
    omega

theorem Pattern.exists_level {n m : Nonterminal} {body : List Symbol} {a : Attributes Value}
    (h : Pattern n body a) (hm : .nonterminal m ∈ body) : ∃ level : Level, m = level.symbol := by
  cases h <;> simp only [List.mem_cons, reduceCtorEq, Symbol.nonterminal.injEq, List.not_mem_nil, or_false,
    false_or] at hm
  case accept => exact ⟨_, hm⟩
  case binary => exact hm.elim (⟨_, ·⟩) (⟨_, ·⟩)
  case single => exact ⟨_, hm⟩
  case enclosed => exact ⟨_, hm⟩
  case negated => exact ⟨_, hm⟩

-- The calculator does not give up.
theorem exists_run {table : Table} (ht : Table.compile arithmetic = .ok table)
    (tokens : List (Token Terminal)) :
    ∃ r, table.machine.parse? (stepLimit tokens) tokens = some r := by
  refine Table.exists_parse_of_bound augmented ht (k := 4) ?_ (Nat.lt_succ_self _)
  intro t hw ⟨p, hp, hs⟩
  cases t
  case leaf => simp [Tree.operations, Tree.yield]
  case node id n ts =>
    obtain ⟨level, rfl⟩ := (pattern hp).exists_level hs
    exact Nat.le_of_add_right_le (Shape.of_wellFormed hw rfl).length_operations_le

-- What the rules compute.

theorem value_applied {op : Operator} {x : Option Value} {v w : Value} :
    (applied op).value (BottomUp.Replay.args [some v, x, some w]) =
      some (.expr (.binary op v.toExpr w.toExpr)) := rfl

theorem value_passed {v : Value} :
    (fitted (take 1) 1).value (BottomUp.Replay.args [some v]) = some (.expr v.toExpr) := rfl

theorem value_enclosed {x y : Option Value} {v : Value} :
    (fitted (take 2) 3).value (BottomUp.Replay.args [x, some v, y]) = some (.expr v.toExpr) := rfl

theorem value_negated {x : Option Value} {v : Value} :
    negated.value (BottomUp.Replay.args [x, some v]) = some (.expr (.neg v.toExpr)) := rfl

end CanonicalLR.Calculator
