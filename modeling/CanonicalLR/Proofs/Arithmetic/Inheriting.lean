import CanonicalLR.Proofs.Agreement
import CanonicalLR.Proofs.Arithmetic.LeftRecursive

namespace CanonicalLR

open CanonicalLR.Tree
open CanonicalLR.Symbol (word)

namespace Example.Arithmetic.Inheriting

-- A nonterminal stands for the expressions of a level, or for what comes after the first operand of a
-- chain.
inductive Part where
  | head (level : Level)
  | tail (c : Chain)

namespace Part

def symbol : Part → Nonterminal
  | head (.chain .sum) => e
  | tail .sum => x
  | head (.chain .product) => t
  | tail .product => y
  | head .factor => f

theorem symbol_inj {a b : Part} (h : a.symbol = b.symbol) : a = b := by
  rcases a with ((_ | _) | _) | (_ | _) <;> rcases b with ((_ | _) | _) | (_ | _) <;>
    simp_all [symbol, e, x, t, y, f]

theorem symbol_ne {a : Part} : a.symbol ≠ .start := by
  rcases a with ((_ | _) | _) | (_ | _) <;> simp [symbol, e, x, t, y, f, Nonterminal.start]

end Part

-- The rules, fitted to their bodies.

def chained : Attributes Ast := ⟨[some (take 2).rule, none, some (take 1).rule], false⟩

def extended (label : String) : Attributes Ast where
  slots := [some (take 3).rule, none, none, some (Template.node label [.inherited 0, take 2]).rule]

def grammar : Grammar Ast where
  terminals := ["$eof", "PLUS", "MINUS", "STAR", "SLASH", "LPAREN", "RPAREN", "NUM"]
  nonterminals := ["$start", "E", "X", "T", "Y", "F"]
  productions := [
    ⟨.accept, .start, [.nonterminal e], .none⟩,
    ⟨⟨1⟩, e, [t, x], chained⟩,
    ⟨⟨2⟩, x, [plus, t, x], extended "+"⟩,
    ⟨⟨3⟩, x, [minus, t, x], extended "-"⟩,
    ⟨⟨4⟩, x, [], fitted (.inherited 0) 0⟩,
    ⟨⟨5⟩, t, [f, y], chained⟩,
    ⟨⟨6⟩, y, [star, f, y], extended "*"⟩,
    ⟨⟨7⟩, y, [slash, f, y], extended "/"⟩,
    ⟨⟨8⟩, y, [], fitted (.inherited 0) 0⟩,
    ⟨⟨9⟩, f, [num], fitted (take 1) 1⟩,
    ⟨⟨10⟩, f, [lparen, e, rparen], fitted (take 2) 3⟩]
  startSymbol := e

theorem define_eq : Grammar.define inheritingArithmetic = .ok grammar := by rfl

theorem augmented : grammar.Augmented := Grammar.augmented_of_define define_eq

theorem short : grammar.Short := by decide

def firsts (sets : List TerminalSet) : FirstSets := ⟨8, [x, y], sets⟩

def additive : TerminalSet := .ofList [plus, minus]

def multiplicative : TerminalSet := .ofList [star, slash]

theorem firstSets_eq : grammar.firstSets =
    firsts [operands, operands, additive, operands, multiplicative, operands] := by
  refine Grammar.firstSets_eq_of_reaches (k := 4) ?_ (by decide +kernel) (by decide +kernel)
  exact
    .stabilize (b := firsts [∅, ∅, additive, ∅, multiplicative, operands])
      (by decide +kernel) (by decide +kernel) <|
    .stabilize (b := firsts [∅, ∅, additive, operands, multiplicative, operands])
      (by decide +kernel) (by decide +kernel) <|
    .stabilize (b := firsts [∅, operands, additive, operands, multiplicative, operands])
      (by decide +kernel) (by decide +kernel) <|
    .stabilize (by decide +kernel) (by decide +kernel) <| .refl _

theorem exists_compile : ∃ table, Table.compile grammar = .ok table ∧ table.conflicts = [] :=
  Table.exists_compile_of_firstSets firstSets_eq (by decide +kernel) (by decide +kernel)

inductive Pattern : Nonterminal → List Symbol → Attributes Ast → Prop
  | accept : Pattern .start [.nonterminal (Part.head Chain.sum).symbol] .none
  | chain (c : Chain) :
    Pattern (Part.head c).symbol [(Part.head c.operand).symbol, (Part.tail c).symbol] chained
  | extend {c : Chain} {operator : Terminal} {label : String} (mem : (operator, label) ∈ c.operators) :
    Pattern (Part.tail c).symbol [operator, (Part.head c.operand).symbol, (Part.tail c).symbol]
      (extended label)
  | finish (c : Chain) : Pattern (Part.tail c).symbol [] (fitted (.inherited 0) 0)
  | number : Pattern (Part.head .factor).symbol [.terminal num] (fitted (take 1) 1)
  | enclosed :
    Pattern (Part.head .factor).symbol [lparen, (Part.head Chain.sum).symbol, rparen] (fitted (take 2) 3)

theorem pattern {p : Production Ast} (h : p ∈ grammar.productions) :
    Pattern p.head p.body p.attributes := by
  simp only [grammar, List.mem_cons, List.not_mem_nil, or_false] at h
  rcases h with rfl | rfl | rfl | rfl | rfl | rfl | rfl | rfl | rfl | rfl | rfl
  · exact .accept
  · exact .chain .sum
  · exact .extend (c := .sum) (by simp [Chain.operators])
  · exact .extend (c := .sum) (by simp [Chain.operators])
  · exact .finish .sum
  · exact .chain .product
  · exact .extend (c := .product) (by simp [Chain.operators])
  · exact .extend (c := .product) (by simp [Chain.operators])
  · exact .finish .product
  · exact .number
  · exact .enclosed

theorem Pattern.exists_mem {n : Nonterminal} {body : List Symbol} {a : Attributes Ast}
    (h : Pattern n body a) : ∃ id, ⟨id, n, body, a⟩ ∈ grammar.productions := by
  cases h
  case accept => exact ⟨.accept, by simp [grammar, Part.symbol]⟩
  case chain c =>
    cases c
    case sum => exact ⟨⟨1⟩, by simp [grammar, Part.symbol, Chain.operand]⟩
    case product => exact ⟨⟨5⟩, by simp [grammar, Part.symbol, Chain.operand]⟩
  case extend c operator label hm =>
    cases c <;> simp only [Chain.operators, List.mem_cons, Prod.mk.injEq, List.not_mem_nil, or_false] at hm
    case sum =>
      obtain ⟨rfl, rfl⟩ | ⟨rfl, rfl⟩ := hm
      · exact ⟨⟨2⟩, by simp [grammar, Part.symbol, Chain.operand]⟩
      · exact ⟨⟨3⟩, by simp [grammar, Part.symbol, Chain.operand]⟩
    case product =>
      obtain ⟨rfl, rfl⟩ | ⟨rfl, rfl⟩ := hm
      · exact ⟨⟨6⟩, by simp [grammar, Part.symbol, Chain.operand]⟩
      · exact ⟨⟨7⟩, by simp [grammar, Part.symbol, Chain.operand]⟩
  case finish c =>
    cases c
    case sum => exact ⟨⟨4⟩, by simp [grammar, Part.symbol]⟩
    case product => exact ⟨⟨8⟩, by simp [grammar, Part.symbol]⟩
  case number => exact ⟨⟨9⟩, by simp [grammar, Part.symbol]⟩
  case enclosed => exact ⟨⟨10⟩, by simp [grammar, Part.symbol]⟩

section

variable {p : Production Ast} {s u : Tree} {level : Level} {c : Chain} {n m : Nonterminal}
variable {shifted before rest tokens : List (Token Terminal)} {label : String} {v w z : Ast}

-- What the rules compute.

theorem value_eq_fillArgs {ts : List Tree} {inherited : Option Ast} (hp : grammar.production? p.id = some p) :
    (node p.id p.head ts).value grammar inherited tokens = p.attributes.value
      (fillArgs grammar p.attributes ts 1 ((Args.blank (ts.length + 1)).setInherited 0 inherited) tokens) := by
  rw [Tree.value, hp]
  rfl

theorem enter_of_symbol {a : Attributes Ast} {i : Nat} {args : Args Ast}
    (h : s.symbol = .nonterminal n) : s.enter a i args = args.inherit a i := by
  cases s <;> cases h
  rfl

-- The operand is moved to the tail.
theorem value_chained {inherited : Option Ast} (hp : grammar.production? p.id = some p)
    (ha : p.attributes = chained) (hs : s.symbol = .nonterminal n) (hu : u.symbol = .nonterminal m)
    (hv : s.value grammar none tokens = some v)
    (hw : u.value grammar (some v) (tokens.drop s.yield.length) = some w) :
    (node p.id p.head [s, u]).value grammar inherited tokens = some w := by
  have hoperand : fillArgs grammar chained [s, u] 1 ((Args.blank 3).setInherited 0 inherited) tokens =
      fillArgs grammar chained [u] 2 ⟨[inherited, none, none], [none, some v, none]⟩
        (tokens.drop s.yield.length) := by
    rw [fillArgs, enter_of_symbol hs, ← hv]
    rfl
  have htail : fillArgs grammar chained [u] 2 ⟨[inherited, none, none], [none, some v, none]⟩
      (tokens.drop s.yield.length) = ⟨[inherited, none, some v], [none, none, some w]⟩ := by
    rw [fillArgs, enter_of_symbol hu, ← hw]
    rfl
  rw [value_eq_fillArgs hp, ha]
  exact congrArg chained.value (hoperand.trans htail)

-- The tail gets the application of the operator.
theorem value_extended {a : Terminal} (hp : grammar.production? p.id = some p)
    (ha : p.attributes = extended label) (hs : s.symbol = .nonterminal n) (hu : u.symbol = .nonterminal m)
    (hw : s.value grammar none (tokens.drop 1) = some w)
    (hz : u.value grammar (some (.node label [v, w])) ((tokens.drop 1).drop s.yield.length) = some z) :
    (node p.id p.head [leaf a, s, u]).value grammar (some v) tokens = some z := by
  let x := (leaf a).value grammar none tokens
  have hoperand : fillArgs grammar (extended label) [leaf a, s, u] 1
        ((Args.blank 4).setInherited 0 (some v)) tokens =
      fillArgs grammar (extended label) [u] 3 ⟨[some v, none, none, none], [none, x, some w, none]⟩
        ((tokens.drop 1).drop s.yield.length) := by
    rw [fillArgs, fillArgs, enter_of_symbol hs, ← hw]
    rfl
  have htail : fillArgs grammar (extended label) [u] 3
        ⟨[some v, none, none, none], [none, x, some w, none]⟩ ((tokens.drop 1).drop s.yield.length) =
      ⟨[some v, none, none, some (.node label [v, w])], [none, x, none, some z]⟩ := by
    rw [fillArgs, enter_of_symbol hu, ← hz]
    rfl
  rw [value_eq_fillArgs hp, ha]
  exact congrArg (extended label).value (hoperand.trans htail)

theorem value_finished (hp : grammar.production? p.id = some p)
    (ha : p.attributes = fitted (.inherited 0) 0) :
    (node p.id p.head []).value grammar (some v) tokens = some v := by
  rw [value_eq_fillArgs hp, ha]
  rfl

-- A head has the value that its tokens denote. A tail turns the expression before it into one that goes
-- up to its end.
def Part.Means (shifted : List (Token Terminal)) (value : Option Ast → Option Ast) : Part → Prop
  | head level => ∃ v, value none = some v ∧ Denotes level shifted v
  | tail c => ∀ before v, Denotes c before v →
    ∃ w, value (some v) = some w ∧ Denotes c (before ++ shifted) w

-- The tree computes what its part of an expression means.
def Part.Sound (part : Part) (s : Tree) : Prop :=
  ∀ shifted rest, shifted.map Token.kind = s.yield →
    part.Means shifted fun inherited => s.value grammar inherited (shifted ++ rest)

namespace Part.Sound

theorem chain (hp : grammar.production? p.id = some p) (ha : p.attributes = chained)
    (hs : s.symbol = .nonterminal n) (hu : u.symbol = .nonterminal m)
    (hhead : (head c.operand).Sound s) (htail : (tail c).Sound u) :
    (head c).Sound (node p.id p.head [s, u]) := by
  intro shifted rest hy
  have hy : shifted.map Token.kind = s.yield ++ yieldAll [u] := hy
  obtain ⟨first, others, rfl, hfirst, hothers⟩ := List.map_eq_append_iff.mp hy
  have ⟨v, hv, hd⟩ := hhead first (others ++ rest) hfirst
  have ⟨w, hw, hd⟩ := htail others rest (hothers.trans (List.append_nil _)) first v (.single hd)
  refine ⟨w, value_chained (v := v) hp ha hs hu ?_ ?_, hd⟩
  · rwa [List.append_assoc]
  · rwa [List.append_assoc, drop_yield hfirst]

theorem extend {operator : Terminal} (hm : (operator, label) ∈ c.operators)
    (hp : grammar.production? p.id = some p) (ha : p.attributes = extended label)
    (hs : s.symbol = .nonterminal n) (hu : u.symbol = .nonterminal m)
    (hhead : (head c.operand).Sound s) (htail : (tail c).Sound u) :
    (tail c).Sound (node p.id p.head [leaf operator, s, u]) := by
  intro shifted rest hy
  have hy : shifted.map Token.kind = operator :: (s.yield ++ yieldAll [u]) := hy
  obtain ⟨token, _, rfl, rfl, hinner⟩ := List.map_eq_cons_iff.mp hy
  obtain ⟨first, others, rfl, hfirst, hothers⟩ := List.map_eq_append_iff.mp hinner
  intro before v hbefore
  have ⟨w, hw, hd⟩ := hhead first (others ++ rest) hfirst
  have ⟨z, hz, hd⟩ := htail others rest (hothers.trans (List.append_nil _)) _ _ (.binary hm hbefore hd)
  refine ⟨z, value_extended (w := w) hp ha hs hu ?_ ?_, ?_⟩
  · simpa using hw
  · simpa [drop_yield hfirst] using hz
  · simpa using hd

theorem finish (hp : grammar.production? p.id = some p) (ha : p.attributes = fitted (.inherited 0) 0) :
    (tail c).Sound (node p.id p.head []) := by
  intro shifted rest hy before v hbefore
  obtain rfl := List.map_eq_nil_iff.mp hy
  exact ⟨v, value_finished hp ha, by simpa using hbefore⟩

theorem number (hp : grammar.production? p.id = some p) (ha : p.attributes = fitted (take 1) 1) :
    (head .factor).Sound (node p.id p.head [leaf num]) := by
  intro shifted rest hy
  obtain ⟨token, rfl, hk⟩ := List.map_eq_singleton_iff.mp hy
  refine ⟨_, (value_node hp (by rw [ha]; rfl)).trans ?_, .number hk⟩
  rw [ha]
  exact value_passed

theorem enclosed (hp : grammar.production? p.id = some p) (ha : p.attributes = fitted (take 2) 3)
    (hs : (head Chain.sum).Sound s) :
    (head .factor).Sound (node p.id p.head [leaf lparen, s, leaf rparen]) := by
  intro shifted rest hy
  obtain ⟨left, tokens, right, rfl, hl, hr, htokens⟩ := tokens_of_bracketed hy
  have ⟨v, hv, hd⟩ := hs tokens (right :: rest) htokens
  refine ⟨v, (value_node hp (by rw [ha]; rfl)).trans ?_, .enclosed hl hr hd⟩
  rw [ha]
  simpa [valueAll, Tree.yield, hv] using value_enclosed

end Part.Sound

-- The induction is on the tree. What a tail inherits is not known there, so it is sound for everything
-- that may come before it.
theorem sound {part : Part} (h : s.WellFormed grammar) (hs : s.symbol = .nonterminal part.symbol) :
    part.Sound s := by
  induction h generalizing part
  case leaf => contradiction
  case node p ts hp hb hts hi =>
    have hpattern := pattern (Grammar.production?_mem hp)
    have hpart : p.head = part.symbol := Symbol.nonterminal.inj hs
    rw [hb, hpart] at hpattern
    generalize hn : part.symbol = n, hbody : ts.map Tree.symbol = body,
      ha : p.attributes = a at hpattern
    cases hpattern
    case accept => exact absurd hn Part.symbol_ne
    case chain c =>
      obtain rfl := Part.symbol_inj hn
      obtain ⟨s, _, rfl, hfst, hrest⟩ := List.map_eq_cons_iff.mp hbody
      obtain ⟨u, rfl, hsnd⟩ := List.map_eq_singleton_iff.mp hrest
      exact .chain hp ha hfst hsnd (hi s (by simp) hfst) (hi u (by simp) hsnd)
    case extend c operator label hm =>
      obtain rfl := Part.symbol_inj hn
      obtain ⟨l, _, rfl, hl, hrest⟩ := List.map_eq_cons_iff.mp hbody
      obtain ⟨s, _, rfl, hfst, hrest⟩ := List.map_eq_cons_iff.mp hrest
      obtain ⟨u, rfl, hsnd⟩ := List.map_eq_singleton_iff.mp hrest
      obtain rfl := eq_leaf_of_symbol hl
      exact .extend hm hp ha hfst hsnd (hi s (by simp) hfst) (hi u (by simp) hsnd)
    case finish c =>
      obtain rfl := Part.symbol_inj hn
      obtain rfl := List.map_eq_nil_iff.mp hbody
      exact .finish hp ha
    case number =>
      obtain rfl := Part.symbol_inj hn
      obtain ⟨l, rfl, hl⟩ := List.map_eq_singleton_iff.mp hbody
      obtain rfl := eq_leaf_of_symbol hl
      exact .number hp ha
    case enclosed =>
      obtain rfl := Part.symbol_inj hn
      obtain ⟨s, rfl, hinner⟩ := eq_of_bracketed hbody
      exact .enclosed hp ha (hi s (by simp) hinner)

-- The grammar derives every expression. The tail of a chain is left open until the end, since the operator
-- that applies last is the first one to be taken apart from an expression, but the last one of the tail.

theorem Pattern.derives {n : Nonterminal} {body : List Symbol} {a : Attributes Ast}
    (h : Pattern n body a) : grammar.Derives [.nonterminal n] body := by
  have ⟨_, hp⟩ := h.exists_mem
  exact .production hp

theorem derives_tail (c : Chain) : grammar.Derives [.nonterminal (Part.tail c).symbol] [] :=
  (Pattern.finish c).derives

-- What is left open at the end of an expression.
def pending : Level → List Symbol
  | .chain c => [.nonterminal (Part.tail c).symbol]
  | .factor => []

theorem derives_pending (level : Level) : grammar.Derives (pending level) [] := by
  cases level
  case chain c => exact derives_tail c
  case factor => exact .refl

theorem derives_open (h : Denotes level tokens v) :
    grammar.Derives [.nonterminal (Part.head level).symbol]
      (word (tokens.map Token.kind) ++ pending level) := by
  induction h
  case number hk => simpa [hk, pending] using Pattern.number.derives
  case enclosed left right tokens v hl hr _ hi =>
    have hinner := hi.trans (derives_pending Chain.sum).append_left
    have := hinner.append_left (γ := [.terminal lparen]) |>.append_right (γ := [.terminal rparen])
    simpa [hl, hr, pending] using Pattern.enclosed.derives.trans this
  case single c tokens v _ hi =>
    have hoperand := hi.trans (derives_pending c.operand).append_left
    simpa using (Pattern.chain c).derives.trans (hoperand.append_right (γ := pending c))
  case binary c operator label before after v w hm _ _ hi hj =>
    have hoperand := hj.trans (derives_pending c.operand).append_left
    have htail := (Pattern.extend hm).derives.trans <|
      (hoperand.append_right (γ := pending c)).append_left (γ := [.terminal operator.kind])
    simpa using hi.trans htail.append_left

theorem derives_of_denotes (h : Denotes level tokens v) :
    grammar.Derives [.nonterminal (Part.head level).symbol] (word (tokens.map Token.kind)) := by
  simpa using (derives_open h).trans (derives_pending level).append_left

theorem sentence_iff : grammar.Sentence (tokens.map Token.kind) ↔ ∃ v, Denotes Chain.sum tokens v := by
  constructor
  case mp =>
    intro h
    have ⟨s, hs, hsymbol, hy⟩ := augmented.sentence_iff.mp h
    have hsound : (Part.head Chain.sum).Sound s := sound hs hsymbol
    have ⟨v, _, hd⟩ := hsound tokens [] hy.symm
    exact ⟨v, hd⟩
  case mpr => exact fun ⟨v, hd⟩ => derives_of_denotes hd

theorem exists_word (part : Part) :
    ∃ w, grammar.Derives [.nonterminal part.symbol] (word w) := by
  cases part
  case head level =>
    have ⟨v, hv⟩ := Denotes.exists_number level
    exact ⟨_, derives_of_denotes hv⟩
  case tail c => exact ⟨[], derives_tail c⟩

theorem productive : grammar.Productive := by
  refine Grammar.productive_of_bodies (exists_word (.head Chain.sum)) fun p hp n hn => ?_
  have hpattern := pattern hp
  generalize p.head = head, p.attributes = a, p.body = body at hpattern hn
  have hpart : ∃ part : Part, n = part.symbol := by
    cases hpattern <;> simp only [List.mem_cons, reduceCtorEq, Symbol.nonterminal.injEq,
      List.not_mem_nil, or_false, false_or] at hn
    case accept => exact ⟨_, hn⟩
    case chain => exact hn.elim (⟨_, ·⟩) (⟨_, ·⟩)
    case extend => exact hn.elim (⟨_, ·⟩) (⟨_, ·⟩)
    case enclosed => exact ⟨_, hn⟩
  obtain ⟨part, rfl⟩ := hpart
  exact exists_word part

end

end Example.Arithmetic.Inheriting

namespace Example.Arithmetic

theorem sentence_iff_inheriting (w : List Terminal) :
    grammar.Sentence w ↔ Inheriting.grammar.Sentence w := by
  have hw : (Token.ofKinds w).map Token.kind = w := Token.map_kind_ofKinds
  rw [← hw, sentence_iff, Inheriting.sentence_iff]

-- The evaluation from the bottom over the left recursive grammar and the evaluation from the top over the
-- other one come to the same tree, unless the parsers come to the same error.
theorem outcomes_agree : ∃ g g' table table',
    Grammar.define arithmetic = .ok g ∧ Table.compile g = .ok table ∧
    Grammar.define inheritingArithmetic = .ok g' ∧ Table.compile g' = .ok table' ∧
    g.terminals = g'.terminals ∧
    ∀ tokens : List (Token Terminal), ∃ limit,
      (∃ out out' derivation v,
        table.machine.parse? limit tokens = some (.ok out) ∧
        g.evaluateBottomUp out.reductions out.operations tokens = .ok (some v) ∧
        table'.machine.parse? limit tokens = some (.ok out') ∧
        g'.leftmost out'.reductions = .ok derivation ∧
        g'.evaluateTopDown derivation tokens = .ok (some v)) ∨
      ∃ k, table.machine.parse? limit tokens = some (.error (.before tokens k)) ∧
        table'.machine.parse? limit tokens = some (.error (.before tokens k)) := by
  have ⟨table, ht, hc⟩ := exists_compile
  have ⟨table', ht', hc'⟩ := Inheriting.exists_compile
  refine ⟨_, _, table, table', define_eq, ht, Inheriting.define_eq, ht', rfl, fun tokens => ?_⟩
  have ⟨limit, h⟩ := Table.parse_cases augmented Inheriting.augmented short Inheriting.short productive
    Inheriting.productive ht ht' hc hc' sentence_iff_inheriting tokens
  refine ⟨limit, h.imp_left ?_⟩
  intro ⟨out, out', tree, tree', hout, hout', hd, hd', hyield⟩
  obtain ⟨shifted, token, rest, rfl, hy, hk⟩ := hd.covered
  have hy' := hy.trans hyield.symm
  have hsound : (Inheriting.Part.head Chain.sum).Sound tree' := Inheriting.sound hd'.wellFormed hd'.symbol
  have ⟨v, hv', hdenotes⟩ := hsound shifted (token :: rest) hy'
  have hv := value_eq (token :: rest) hd.wellFormed hd.symbol hy hdenotes
  refine ⟨out, out', tree'.preorder, v, hout, ?bottomUp, hout', ?leftmost, ?topDown⟩
  case bottomUp =>
    rw [hd.reductions, hd.operations, ← hv]
    refine Grammar.evaluateBottomUp_postorder hd.wellFormed hd.symbol ?_ hy hk
    exact fun _ _ p hp => sAttributed (Grammar.production?_mem hp)
  case leftmost =>
    rw [hd'.reductions]
    exact hd'.wellFormed.leftmost_postorder
  case topDown =>
    rw [← hv']
    exact Grammar.evaluateTopDown_preorder hd'.wellFormed hd'.symbol hy' hk

end Example.Arithmetic
end CanonicalLR
