import CanonicalLR.Proofs.ErrorDetection
import CanonicalLR.Proofs.Evaluation

namespace CanonicalLR.Example.Arithmetic

open CanonicalLR.Tree

-- The levels at which operators bind. Below them there are the factors.
inductive Chain where
  | sum
  | product

inductive Level where
  | chain (c : Chain)
  | factor

instance : Coe Chain Level := ⟨.chain⟩

namespace Chain

def operators : Chain → List (Terminal × String)
  | sum => [(plus, "+"), (minus, "-")]
  | product => [(star, "*"), (slash, "/")]

-- The level of the operands on the right.
def operand : Chain → Level
  | sum => product
  | product => .factor

end Chain

-- Operators of the same level associate to the left.
inductive Denotes : Level → List (Token Terminal) → Ast → Prop
  | number {token : Token Terminal} (kind : token.kind = num) :
    Denotes .factor [token] (.leaf token.lexeme)
  | enclosed {left right : Token Terminal} {tokens : List (Token Terminal)} {v : Ast}
    (lparen : left.kind = lparen) (rparen : right.kind = rparen) (rec : Denotes Chain.sum tokens v) :
    Denotes .factor (left :: tokens ++ [right]) v
  | single {c : Chain} {tokens : List (Token Terminal)} {v : Ast} (rec : Denotes c.operand tokens v) :
    Denotes c tokens v
  | binary {c : Chain} {operator : Token Terminal} {label : String} {before after : List (Token Terminal)}
    {v w : Ast} (mem : (operator.kind, label) ∈ c.operators) (left : Denotes c before v)
    (right : Denotes c.operand after w) :
    Denotes c (before ++ operator :: after) (.node label [v, w])

-- Any number is an expression of every level.
theorem Denotes.exists_number (level : Level) : ∃ v, Denotes level [⟨"0", num, .origin⟩] v := by
  have hf : Denotes .factor [⟨"0", num, .origin⟩] (.leaf "0") := .number rfl
  have hp : Denotes Chain.product _ _ := .single hf
  match level with
  | .factor => exact ⟨_, hf⟩
  | .chain .product => exact ⟨_, hp⟩
  | .chain .sum => exact ⟨_, .single hp⟩

def Level.symbol : Level → Nonterminal
  | chain .sum => expr
  | chain .product => term
  | factor => Arithmetic.factor

theorem Level.symbol_inj {l m : Level} (h : l.symbol = m.symbol) : l = m := by
  rcases l with (_ | _) | _ <;> rcases m with (_ | _) | _ <;>
    simp_all [symbol, expr, term, Arithmetic.factor]

theorem Level.symbol_ne {l : Level} : l.symbol ≠ .start := by
  rcases l with (_ | _) | _ <;> simp [symbol, expr, term, Arithmetic.factor, Nonterminal.start]

-- A synthesized value, fitted to a body of the given length.
def fitted (t : Template) (length : Nat) : Attributes Ast :=
  ⟨some t.rule :: List.replicate length none, false⟩

def applied (label : String) : Attributes Ast := fitted (.node label [take 1, take 3]) 3

def grammar : Grammar Ast where
  terminals := ["$eof", "PLUS", "MINUS", "STAR", "SLASH", "LPAREN", "RPAREN", "NUM"]
  nonterminals := ["$start", "EXPR", "TERM", "FACTOR"]
  productions := [
    ⟨.accept, .start, [.nonterminal expr], .none⟩,
    ⟨⟨1⟩, expr, [expr, plus, term], applied "+"⟩,
    ⟨⟨2⟩, expr, [expr, minus, term], applied "-"⟩,
    ⟨⟨3⟩, expr, [term], fitted (take 1) 1⟩,
    ⟨⟨4⟩, term, [term, star, factor], applied "*"⟩,
    ⟨⟨5⟩, term, [term, slash, factor], applied "/"⟩,
    ⟨⟨6⟩, term, [factor], fitted (take 1) 1⟩,
    ⟨⟨7⟩, factor, [num], fitted (take 1) 1⟩,
    ⟨⟨8⟩, factor, [lparen, expr, rparen], fitted (take 2) 3⟩]
  startSymbol := expr

theorem define_eq : Grammar.define arithmetic = .ok grammar := by rfl

theorem augmented : grammar.Augmented := Grammar.augmented_of_define define_eq

theorem short : grammar.Short := by decide

def operands : TerminalSet := .ofList [lparen, num]

def firsts (sets : List TerminalSet) : FirstSets := ⟨8, [], sets⟩

-- The sets after each round. Their limit is far too large for the rounds to be run with it.
theorem firstSets_eq : grammar.firstSets = firsts (List.replicate 4 operands) := by
  refine Grammar.firstSets_eq_of_reaches (k := 4) ?_ (by decide +kernel) (by decide +kernel)
  exact
    .stabilize (b := firsts [∅, ∅, ∅, operands]) (by decide +kernel) (by decide +kernel) <|
    .stabilize (b := firsts [∅, ∅, operands, operands]) (by decide +kernel) (by decide +kernel) <|
    .stabilize (b := firsts [∅, operands, operands, operands]) (by decide +kernel) (by decide +kernel) <|
    .stabilize (by decide +kernel) (by decide +kernel) <| .refl _

theorem exists_compile : ∃ table, Table.compile grammar = .ok table ∧ table.conflicts = [] :=
  Table.exists_compile_of_firstSets firstSets_eq (by decide +kernel) (by decide +kernel)

-- The productions follow a few patterns, which are the same for all operators and levels.
inductive Pattern : Nonterminal → List Symbol → Attributes Ast → Prop
  | accept : Pattern .start [.nonterminal (Level.symbol Chain.sum)] .none
  | binary {c : Chain} {operator : Terminal} {label : String} (mem : (operator, label) ∈ c.operators) :
    Pattern (Level.symbol c) [Level.symbol c, operator, c.operand.symbol] (applied label)
  | single (c : Chain) : Pattern (Level.symbol c) [.nonterminal c.operand.symbol] (fitted (take 1) 1)
  | number : Pattern (Level.symbol .factor) [.terminal num] (fitted (take 1) 1)
  | enclosed : Pattern (Level.symbol .factor) [lparen, Level.symbol Chain.sum, rparen] (fitted (take 2) 3)

theorem pattern {p : Production Ast} (h : p ∈ grammar.productions) :
    Pattern p.head p.body p.attributes := by
  simp only [grammar, List.mem_cons, List.not_mem_nil, or_false] at h
  rcases h with rfl | rfl | rfl | rfl | rfl | rfl | rfl | rfl | rfl
  · exact .accept
  · exact .binary (c := .sum) (by simp [Chain.operators])
  · exact .binary (c := .sum) (by simp [Chain.operators])
  · exact .single .sum
  · exact .binary (c := .product) (by simp [Chain.operators])
  · exact .binary (c := .product) (by simp [Chain.operators])
  · exact .single .product
  · exact .number
  · exact .enclosed

theorem Pattern.exists_mem {n : Nonterminal} {body : List Symbol} {a : Attributes Ast}
    (h : Pattern n body a) : ∃ id, ⟨id, n, body, a⟩ ∈ grammar.productions := by
  cases h
  case accept => exact ⟨.accept, by simp [grammar, Level.symbol]⟩
  case binary c operator label hm =>
    cases c <;> simp only [Chain.operators, List.mem_cons, Prod.mk.injEq, List.not_mem_nil, or_false] at hm
    case sum =>
      obtain ⟨rfl, rfl⟩ | ⟨rfl, rfl⟩ := hm
      · exact ⟨⟨1⟩, by simp [grammar, Level.symbol, Chain.operand]⟩
      · exact ⟨⟨2⟩, by simp [grammar, Level.symbol, Chain.operand]⟩
    case product =>
      obtain ⟨rfl, rfl⟩ | ⟨rfl, rfl⟩ := hm
      · exact ⟨⟨4⟩, by simp [grammar, Level.symbol, Chain.operand]⟩
      · exact ⟨⟨5⟩, by simp [grammar, Level.symbol, Chain.operand]⟩
  case single c =>
    cases c
    case sum => exact ⟨⟨3⟩, by simp [grammar, Level.symbol, Chain.operand]⟩
    case product => exact ⟨⟨6⟩, by simp [grammar, Level.symbol, Chain.operand]⟩
  case number => exact ⟨⟨7⟩, by simp [grammar, Level.symbol]⟩
  case enclosed => exact ⟨⟨8⟩, by simp [grammar, Level.symbol]⟩

-- What the rules compute.

theorem value_applied {label : String} {x : Option Ast} {v w : Ast} :
    (applied label).value (BottomUp.Replay.args [some v, x, some w]) = some (.node label [v, w]) := rfl

theorem value_passed {v : Ast} :
    (fitted (take 1) 1).value (BottomUp.Replay.args [some v]) = some v := rfl

theorem value_enclosed {x y : Option Ast} {v : Ast} :
    (fitted (take 2) 3).value (BottomUp.Replay.args [x, some v, y]) = some v := rfl

-- A tree of a level that reads some tokens, whatever comes after them.
structure Reads (level : Level) (tokens : List (Token Terminal)) (v : Ast) (t : Tree) : Prop where
  wellFormed : t.WellFormed grammar
  symbol : t.symbol = .nonterminal level.symbol
  yield : t.yield = tokens.map Token.kind
  value : ∀ rest, t.value grammar none (tokens ++ rest) = some v

section

variable {t u : Tree} {level : Level} {c : Chain} {operator : Token Terminal}
variable {shifted before after rest tokens : List (Token Terminal)} {label : String} {v w : Ast}

namespace Reads

theorem drop (h : Reads level tokens v t) : (tokens ++ rest).drop t.yield.length = rest := by
  rw [h.yield, List.length_map, List.drop_left]

theorem exists_of_pattern {a : Attributes Ast} {ts : List Tree}
    (hp : Pattern level.symbol (ts.map Tree.symbol) a) (hw : ∀ t ∈ ts, t.WellFormed grammar)
    (hy : yieldAll ts = tokens.map Token.kind) (ha : a.isSAttributed = true)
    (hv : ∀ rest, a.value (BottomUp.Replay.args (valueAll grammar ts (tokens ++ rest))) = some v) :
    ∃ t, Reads level tokens v t := by
  have ⟨id, hp⟩ := hp.exists_mem
  have hl := augmented.lookup _ hp
  exact ⟨.node id level.symbol ts, {
    wellFormed := .node _ ts hl rfl hw
    symbol := rfl
    yield := hy
    value rest := Eq.trans (value_node hl ha) (hv rest) }⟩

theorem number (hk : operator.kind = num) :
    ∃ t, Reads .factor [operator] (.leaf operator.lexeme) t := by
  have hp : Pattern (Level.symbol .factor) ([.leaf num].map Tree.symbol) (fitted (take 1) 1) := .number
  refine exists_of_pattern hp ?_ ?_ rfl fun rest => ?_
  · simpa using .leaf num
  · simp [Tree.yield, yieldAll, hk]
  · exact value_passed

theorem enclosed {left right : Token Terminal} (hl : left.kind = lparen) (hr : right.kind = rparen)
    (h : Reads Chain.sum tokens v t) : ∃ u, Reads .factor (left :: tokens ++ [right]) v u := by
  have hp : Pattern (Level.symbol .factor) ([.leaf lparen, t, .leaf rparen].map Tree.symbol)
      (fitted (take 2) 3) := by
    simpa [h.symbol, symbol_leaf] using .enclosed
  refine exists_of_pattern hp ?_ ?_ rfl fun rest => ?_
  · simpa using ⟨.leaf lparen, h.wellFormed, .leaf rparen⟩
  · simp [Tree.yield, yieldAll, hl, hr, h.yield]
  · simp [valueAll, Tree.yield, h.value, value_enclosed]

theorem single (h : Reads c.operand tokens v t) : ∃ u, Reads c tokens v u := by
  have hp : Pattern (Level.symbol c) ([t].map Tree.symbol) (fitted (take 1) 1) := by
    simpa [h.symbol] using .single c
  refine exists_of_pattern hp ?_ ?_ rfl fun rest => ?_
  · simpa using h.wellFormed
  · simp [yieldAll, h.yield]
  · simp [valueAll, h.value, value_passed]

theorem binary (hm : (operator.kind, label) ∈ c.operators) (ht : Reads c before v t)
    (hu : Reads c.operand after w u) :
    ∃ s, Reads c (before ++ operator :: after) (.node label [v, w]) s := by
  have hp : Pattern (Level.symbol c) ([t, .leaf operator.kind, u].map Tree.symbol) (applied label) := by
    simpa [ht.symbol, hu.symbol, symbol_leaf] using .binary hm
  refine exists_of_pattern hp ?_ ?_ rfl fun rest => ?_
  · simpa using ⟨ht.wellFormed, .leaf _, hu.wellFormed⟩
  · simp [Tree.yield, yieldAll, ht.yield, hu.yield]
  · simp [valueAll, Tree.yield, ht.value, ht.drop, hu.value, value_applied]

end Reads

-- The trees of the grammar and the expressions are the same.

theorem Denotes.exists_reads (h : Denotes level tokens v) : ∃ t, Reads level tokens v t := by
  induction h
  case number hk => exact Reads.number hk
  case enclosed hl hr _ hi =>
    have ⟨_, ht⟩ := hi
    exact ht.enclosed hl hr
  case single hi =>
    have ⟨_, ht⟩ := hi
    exact ht.single
  case binary hm _ _ hi hj =>
    have ⟨_, ht⟩ := hi
    have ⟨_, hu⟩ := hj
    exact ht.binary hm hu

-- Trees in brackets.

theorem eq_of_bracketed {a b : Terminal} {x : Symbol} {ts : List Tree}
    (h : ts.map Tree.symbol = [.terminal a, x, .terminal b]) :
    ∃ t, ts = [leaf a, t, leaf b] ∧ t.symbol = x := by
  obtain ⟨l, _, rfl, hl, h⟩ := List.map_eq_cons_iff.mp h
  obtain ⟨t, _, rfl, ht, h⟩ := List.map_eq_cons_iff.mp h
  obtain ⟨r, rfl, hr⟩ := List.map_eq_singleton_iff.mp h
  exact ⟨t, by rw [eq_leaf_of_symbol hl, eq_leaf_of_symbol hr], ht⟩

theorem tokens_of_bracketed {a b : Terminal}
    (hy : shifted.map Token.kind = yieldAll [leaf a, t, leaf b]) :
    ∃ left tokens right, shifted = left :: tokens ++ [right] ∧ left.kind = a ∧ right.kind = b ∧
      tokens.map Token.kind = t.yield := by
  simp only [Tree.yield, yieldAll, List.cons_append, List.nil_append] at hy
  obtain ⟨left, _, rfl, hl, hinner⟩ := List.map_eq_cons_iff.mp hy
  obtain ⟨tokens, _, rfl, htokens, hlast⟩ := List.map_eq_append_iff.mp hinner
  obtain ⟨right, rfl, hr⟩ := List.map_eq_singleton_iff.mp hlast
  exact ⟨left, tokens, right, rfl, hl, hr, htokens⟩

theorem exists_denotes (h : t.WellFormed grammar) (hs : t.symbol = .nonterminal level.symbol)
    (hy : shifted.map Token.kind = t.yield) : ∃ v, Denotes level shifted v := by
  induction h generalizing level shifted
  case leaf => contradiction
  case node p ts hp hb hts hi =>
    have hpattern := pattern (Grammar.production?_mem hp)
    have hlevel : p.head = level.symbol := Symbol.nonterminal.inj hs
    rw [hb, hlevel] at hpattern
    generalize hn : level.symbol = n, hbody : ts.map Tree.symbol = body, p.attributes = a at hpattern
    cases hpattern
    case accept => exact absurd hn Level.symbol_ne
    case binary c operator label hm =>
      obtain rfl := Level.symbol_inj hn
      obtain ⟨t, _, rfl, ht, hrest⟩ := List.map_eq_cons_iff.mp hbody
      obtain ⟨l, _, rfl, hl, hrest⟩ := List.map_eq_cons_iff.mp hrest
      obtain ⟨u, rfl, hu⟩ := List.map_eq_singleton_iff.mp hrest
      obtain rfl := eq_leaf_of_symbol hl
      obtain ⟨before, _, rfl, hbefore, hy⟩ := List.map_eq_append_iff.mp hy
      obtain ⟨token, after, rfl, rfl, hafter⟩ := List.map_eq_cons_iff.mp hy
      have ⟨v, hv⟩ := hi t (by simp) ht hbefore
      have ⟨w, hw⟩ := hi u (by simp) hu (hafter.trans (List.append_nil _))
      exact ⟨_, .binary hm hv hw⟩
    case single c =>
      obtain rfl := Level.symbol_inj hn
      obtain ⟨t, rfl, ht⟩ := List.map_eq_singleton_iff.mp hbody
      have ⟨v, hv⟩ := hi t (by simp) ht (hy.trans (List.append_nil _))
      exact ⟨v, .single hv⟩
    case number =>
      obtain rfl := Level.symbol_inj hn
      obtain ⟨l, rfl, hl⟩ := List.map_eq_singleton_iff.mp hbody
      obtain rfl := eq_leaf_of_symbol hl
      obtain ⟨token, rfl, hk⟩ := List.map_eq_singleton_iff.mp hy
      exact ⟨_, .number hk⟩
    case enclosed =>
      obtain rfl := Level.symbol_inj hn
      obtain ⟨t, rfl, ht⟩ := eq_of_bracketed hbody
      obtain ⟨left, tokens, right, rfl, hl, hr, htokens⟩ := tokens_of_bracketed hy
      have ⟨v, hv⟩ := hi t (by simp) ht htokens
      exact ⟨v, .enclosed hl hr hv⟩

-- The grammar is not ambiguous, so the tree of an expression has the value that it denotes.
theorem value_eq (rest : List (Token Terminal)) (h : t.WellFormed grammar)
    (hs : t.symbol = .nonterminal expr) (hy : shifted.map Token.kind = t.yield)
    (hd : Denotes Chain.sum shifted v) :
    t.value grammar none (shifted ++ rest) = some v := by
  have ⟨table, ht, hc⟩ := exists_compile
  obtain ⟨a, ha, rfl⟩ := Table.compile_canonical ht
  have ⟨u, hu⟩ := hd.exists_reads
  obtain rfl := ha.tree_unique augmented short hc hu.wellFormed hu.symbol h hs (hy.symm.trans hu.yield.symm)
  exact hu.value rest

theorem sentence_iff : grammar.Sentence (tokens.map Token.kind) ↔ ∃ v, Denotes Chain.sum tokens v := by
  rw [augmented.sentence_iff]
  constructor
  case mp =>
    intro ⟨t, ht, hs, hy⟩
    exact exists_denotes ht hs hy.symm
  case mpr =>
    intro ⟨v, hv⟩
    have ⟨t, ht⟩ := hv.exists_reads
    exact ⟨t, ht.wellFormed, ht.symbol, ht.yield⟩

theorem exists_word (level : Level) :
    ∃ w, grammar.Derives [.nonterminal level.symbol] (Symbol.word w) := by
  have ⟨v, hv⟩ := Denotes.exists_number level
  have ⟨t, ht⟩ := hv.exists_reads
  exact ⟨_, ht.symbol ▸ ht.wellFormed.rightmost.derives⟩

theorem productive : grammar.Productive := by
  refine Grammar.productive_of_bodies (exists_word Chain.sum) fun p hp n hn => ?_
  have hpattern := pattern hp
  generalize p.head = head, p.attributes = a, p.body = body at hpattern hn
  have hlevel : ∃ level : Level, n = level.symbol := by
    cases hpattern <;> simp only [List.mem_cons, reduceCtorEq, Symbol.nonterminal.injEq,
      List.not_mem_nil, or_false, false_or] at hn
    case accept => exact ⟨_, hn⟩
    case binary => exact hn.elim (⟨_, ·⟩) (⟨_, ·⟩)
    case single => exact ⟨_, hn⟩
    case enclosed => exact ⟨_, hn⟩
  obtain ⟨level, rfl⟩ := hlevel
  exact exists_word level

theorem sAttributed {p : Production Ast} (h : p ∈ grammar.productions) : p.attributes.isSAttributed := by
  revert p
  decide

end

end CanonicalLR.Example.Arithmetic
