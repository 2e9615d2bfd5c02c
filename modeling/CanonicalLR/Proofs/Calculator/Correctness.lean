import CanonicalLR.Proofs.Calculator.Lexing

namespace CanonicalLR.Calculator

open Lexicon (pieces isBlank)

-- A tree of a level that reads some tokens, whatever comes after them.
structure Reads (level : Level) (tokens : List (Token Terminal)) (e : Expr) (t : Tree) : Prop where
  wellFormed : t.WellFormed arithmetic
  symbol : t.symbol = .nonterminal level.symbol
  yield : t.yield = tokens.map Token.kind
  value : ∀ rest, t.value arithmetic none (tokens ++ rest) = some (.expr e)

section

variable {level : Level} {c : Chain} {op : Operator} {left right token : Token Terminal} {t u : Tree}
variable {before after tokens ts rest : List (Token Terminal)} {e f : Expr} {cs : List Char}
variable {ps bs : List (List Char)}

namespace Reads

theorem drop (h : Reads level tokens e t) : (tokens ++ rest).drop t.yield.length = rest := by
  rw [h.yield, List.length_map, List.drop_left]

theorem exists_of_pattern {a : Attributes Value} {ts : List Tree}
    (hp : Pattern level.symbol (ts.map Tree.symbol) a) (hw : ∀ t ∈ ts, t.WellFormed arithmetic)
    (hy : Tree.yieldAll ts = tokens.map Token.kind)
    (hv : ∀ rest, a.value (BottomUp.Replay.args (Tree.valueAll arithmetic ts (tokens ++ rest))) =
      some (.expr e)) : ∃ t, Reads level tokens e t := by
  have ⟨id, hp⟩ := hp.exists_mem
  have hl := augmented.lookup _ hp
  exact ⟨.node id level.symbol ts, {
    wellFormed := .node _ ts hl rfl hw
    symbol := rfl
    yield := hy
    value rest := Eq.trans (Tree.value_node hl (sAttributed hp)) (hv rest) }⟩

theorem number (hk : token.kind = num) :
    ∃ t, Reads .factor [token] (Value.lexeme token.lexeme).toExpr t := by
  have hp : Pattern (Level.symbol .factor) ([.leaf num].map Tree.symbol) (fitted (take 1) 1) := .number
  refine exists_of_pattern hp ?_ ?_ fun rest => ?_
  · simpa using .leaf num
  · simp [Tree.yield, Tree.yieldAll, hk]
  · exact value_passed

theorem enclosed (hl : left.kind = lparen) (hr : right.kind = rparen) (h : Reads Chain.sum tokens e t) :
    ∃ u, Reads .factor (left :: tokens ++ [right]) e u := by
  have hp : Pattern (Level.symbol .factor) ([.leaf lparen, t, .leaf rparen].map Tree.symbol)
      (fitted (take 2) 3) := by
    simpa [h.symbol, Tree.symbol_leaf] using .enclosed
  refine exists_of_pattern hp ?_ ?_ fun rest => ?_
  · simpa using ⟨.leaf lparen, h.wellFormed, .leaf rparen⟩
  · simp [Tree.yield, Tree.yieldAll, hl, hr, h.yield]
  · simp [Tree.valueAll, Tree.yield, h.value, value_enclosed, Value.toExpr]

theorem negated (hm : token.kind = minus) (h : Reads .factor tokens e t) :
    ∃ u, Reads .factor (token :: tokens) (.neg e) u := by
  have hp : Pattern (Level.symbol .factor) ([.leaf minus, t].map Tree.symbol) Calculator.negated := by
    simpa [h.symbol, Tree.symbol_leaf] using .negated
  refine exists_of_pattern hp ?_ ?_ fun rest => ?_
  · simpa using ⟨.leaf minus, h.wellFormed⟩
  · simp [Tree.yield, Tree.yieldAll, hm, h.yield]
  · simp [Tree.valueAll, Tree.yield, h.value, value_negated, Value.toExpr]

theorem single (h : Reads c.operand tokens e t) : ∃ u, Reads c tokens e u := by
  have hp : Pattern (Level.symbol c) ([t].map Tree.symbol) (fitted (take 1) 1) := by
    simpa [h.symbol] using .single c
  refine exists_of_pattern hp ?_ ?_ fun rest => ?_
  · simpa using h.wellFormed
  · simp [Tree.yieldAll, h.yield]
  · simp [Tree.valueAll, h.value, value_passed, Value.toExpr]

theorem binary (ho : token.kind = op.terminal) (ht : Reads op.chain before e t)
    (hu : Reads op.chain.operand after f u) :
    ∃ s, Reads op.chain (before ++ token :: after) (.binary op e f) s := by
  have hp : Pattern (Level.symbol op.chain) ([t, .leaf op.terminal, u].map Tree.symbol) (applied op) := by
    simpa [ht.symbol, hu.symbol, Tree.symbol_leaf] using .binary op
  refine exists_of_pattern hp ?_ ?_ fun rest => ?_
  · simpa using ⟨ht.wellFormed, .leaf _, hu.wellFormed⟩
  · simp [Tree.yield, Tree.yieldAll, ht.yield, hu.yield, ho]
  · simp [Tree.valueAll, Tree.yield, ht.value, ht.drop, hu.value, value_applied, Value.toExpr]

end Reads

theorem isBlank_iff {b : Char} : isBlank b ↔ b ∈ [' ', '\t', '\r', '\n', '\x0c'] := by
  simp [isBlank, or_assoc]

theorem mem_signs (op : Operator) : (op.char, op.terminal) ∈ signs := by
  cases op <;> decide

theorem mem_signs_lparen : ('(', lparen) ∈ signs := by decide

theorem mem_signs_rparen : (')', rparen) ∈ signs := by decide

theorem mem_signs_minus : ('-', minus) ∈ signs := by decide

-- The pieces of a text that is written for an expression are the pieces of its parts.

theorem pieces_enclosed : pieces ('(' :: cs ++ [')']) = ['('] :: (pieces cs ++ [[')']]) := by
  rw [List.cons_append, Lexicon.pieces_cons (by decide), Lexicon.pieces_append (by decide), pieces]

theorem pieces_blankBefore {b : Char} (hb : isBlank b) : pieces (b :: cs) = [b] :: pieces cs :=
  Lexicon.pieces_cons (not_isDigit_of_isBlank hb)

theorem pieces_blankAfter {b : Char} (hb : isBlank b) : pieces (cs ++ [b]) = pieces cs ++ [[b]] :=
  Lexicon.pieces_append (not_isDigit_of_isBlank hb)

theorem pieces_binary {ds : List Char} :
    pieces (cs ++ op.char :: ds) = pieces cs ++ [op.char] :: pieces ds :=
  Lexicon.pieces_append (not_isDigit_of_sign (mem_signs op))

namespace Lexes

theorem exists_numeral {ds : List Char} (hn : ds ≠ []) (hd : ∀ d ∈ ds, d.isDigit) :
    ∃ ts, Lexes (pieces ds) ts := by
  rw [Lexicon.pieces_numeral hn hd]
  exact ⟨[⟨.ofList ds, num, .origin⟩], .token (.numeral hn hd rfl rfl) .nil⟩

theorem sign {d : Char} {k : Terminal} (hm : (d, k) ∈ signs) (h : Lexes ps ts) :
    Lexes ([d] :: ps) (⟨.singleton d, k, .origin⟩ :: ts) :=
  .token (.sign hm) h

end Lexes

namespace Written

theorem exists_lexes (h : Written level cs e) : ∃ ts, Lexes (pieces cs) ts := by
  induction h
  case number hn hd _ => exact Lexes.exists_numeral hn hd
  case overflow hn hd _ => exact Lexes.exists_numeral hn hd
  case enclosed hi =>
    have ⟨ts, hts⟩ := hi
    rw [pieces_enclosed]
    exact ⟨_, .sign mem_signs_lparen (hts.append (.sign mem_signs_rparen .nil))⟩
  case negated hi =>
    have ⟨ts, hts⟩ := hi
    rw [Lexicon.pieces_cons (by decide)]
    exact ⟨_, .sign mem_signs_minus hts⟩
  case single hi => exact hi
  case binary op _ _ _ _ _ _ hi hj =>
    have ⟨ts, hts⟩ := hi
    have ⟨us, hus⟩ := hj
    rw [pieces_binary]
    exact ⟨_, hts.append (.sign (mem_signs op) hus)⟩
  case blankBefore hb _ hi =>
    have ⟨ts, hts⟩ := hi
    have hb := isBlank_iff.mpr hb
    rw [pieces_blankBefore hb]
    exact ⟨ts, .blank hb hts⟩
  case blankAfter hb _ hi =>
    have ⟨ts, hts⟩ := hi
    have hb := isBlank_iff.mpr hb
    rw [pieces_blankAfter hb]
    exact ⟨_, hts.append (.blank hb .nil)⟩

theorem exists_reads_numeral {ds : List Char} (hn : ds ≠ []) (hd : ∀ d ∈ ds, d.isDigit)
    (hl : Lexes (pieces ds) ts) : ∃ t, Reads .factor ts (Value.lexeme (.ofList ds)).toExpr t := by
  rw [Lexicon.pieces_numeral hn hd] at hl
  have hp b (hb : ds = [b]) : ¬ isBlank b :=
    fun hblank => not_isDigit_of_isBlank hblank (hd b (hb ▸ List.mem_singleton_self b))
  obtain ⟨token, _, rfl, hs, hnil⟩ := hl.of_token hp
  cases hnil
  have ⟨hk, hlexeme⟩ := hs.of_digits hd
  exact hlexeme ▸ Reads.number hk

theorem exists_reads (h : Written level cs e) (hl : Lexes (pieces cs) ts) : ∃ t, Reads level ts e t := by
  induction h generalizing ts
  case number hn hd hv => exact toExpr_number hn hd hv ▸ exists_reads_numeral hn hd hl
  case overflow hn hd hv => exact toExpr_overflow hn hd hv ▸ exists_reads_numeral hn hd hl
  case enclosed hi =>
    rw [pieces_enclosed] at hl
    obtain ⟨left, _, rfl, hleft, hl⟩ := hl.of_sign mem_signs_lparen
    obtain ⟨tokens, _, rfl, htokens, hl⟩ := hl.of_append_pieces
    obtain ⟨right, _, rfl, hright, hnil⟩ := hl.of_sign mem_signs_rparen
    cases hnil
    have ⟨t, ht⟩ := hi htokens
    exact ht.enclosed hleft hright
  case negated hi =>
    rw [Lexicon.pieces_cons (by decide)] at hl
    obtain ⟨token, tokens, rfl, hk, hl⟩ := hl.of_sign mem_signs_minus
    have ⟨t, ht⟩ := hi hl
    exact ht.negated hk
  case single hi =>
    have ⟨t, ht⟩ := hi hl
    exact ht.single
  case binary op _ _ _ _ _ _ hi hj =>
    rw [pieces_binary] at hl
    obtain ⟨before, _, rfl, hbefore, hl⟩ := hl.of_append_pieces
    obtain ⟨token, after, rfl, hk, hafter⟩ := hl.of_sign (mem_signs op)
    have ⟨t, ht⟩ := hi hbefore
    have ⟨u, hu⟩ := hj hafter
    exact ht.binary hk hu
  case blankBefore hb _ hi =>
    have hb := isBlank_iff.mpr hb
    rw [pieces_blankBefore hb] at hl
    exact hi (hl.of_blank hb)
  case blankAfter hb _ hi =>
    have hb := isBlank_iff.mpr hb
    rw [pieces_blankAfter hb] at hl
    obtain ⟨tokens, _, rfl, htokens, hl⟩ := hl.of_append_pieces
    cases hl.of_blank hb
    rw [List.append_nil]
    exact hi htokens

end Written

-- Blanks around a text do not matter.
namespace Written

theorem blanksBefore (hb : Lexes bs []) (h : Written level cs e) : Written level (bs.flatten ++ cs) e := by
  generalize hn : ([] : List (Token Terminal)) = ts at hb
  induction hb
  case nil => exact h
  case blank hb _ hi => exact .blankBefore (isBlank_iff.mp hb) (hi hn)
  case token => contradiction

theorem blanksAfter (hb : Lexes bs []) (h : Written level cs e) : Written level (cs ++ bs.flatten) e := by
  generalize hn : ([] : List (Token Terminal)) = ts at hb
  induction hb generalizing cs
  case nil => simpa using h
  case blank hb _ hi => simpa using hi (.blankAfter (isBlank_iff.mp hb) h) hn
  case token => contradiction

end Written

-- What the tree of some tokens says about their text. Blanks in front of an operator or a bracket belong to
-- the expression before it.
theorem Shape.exists_written (h : Shape level t) (hl : Lexes ps ts) (hy : ts.map Token.kind = t.yield) :
    ∃ e, Written level ps.flatten e := by
  induction h generalizing ps ts
  case number =>
    obtain ⟨token, rfl, hk⟩ := List.map_eq_singleton_iff.mp hy
    obtain ⟨bs, piece, cs, rfl, hbs, hs, hcs⟩ := hl.of_cons_token
    have ⟨hn, hd⟩ := hs.digits_of_num hk
    have ⟨e, he⟩ := Calculator.exists_written hn hd
    exact ⟨e, by simpa using (he.blanksAfter hcs).blanksBefore hbs⟩
  case enclosed hi =>
    obtain ⟨left, tokens, right, rfl, hleft, hright, htokens⟩ := Example.Arithmetic.tokens_of_bracketed hy
    rw [List.cons_append] at hl
    obtain ⟨bs, _, rest, rfl, hbs, hs, hrest⟩ := hl.of_cons_token
    obtain rfl := hs.eq_sign (hleft ▸ mem_signs_lparen)
    obtain ⟨qs, last, rfl, hqs, hlast⟩ := hrest.of_append_tokens
    obtain ⟨cs, _, ds, rfl, hcs, hs, hds⟩ := hlast.of_cons_token
    obtain rfl := hs.eq_sign (hright ▸ mem_signs_rparen)
    have ⟨e, he⟩ := hi hqs htokens
    exact ⟨e, by simpa using ((Written.enclosed (he.blanksAfter hcs)).blanksAfter hds).blanksBefore hbs⟩
  case negated hi =>
    obtain ⟨token, tokens, rfl, hk, htokens⟩ := List.map_eq_cons_iff.mp hy
    obtain ⟨bs, _, qs, rfl, hbs, hs, hqs⟩ := hl.of_cons_token
    obtain rfl := hs.eq_sign (hk ▸ mem_signs_minus)
    have ⟨e, he⟩ := hi hqs (htokens.trans (List.append_nil _))
    exact ⟨_, by simpa using (Written.negated he).blanksBefore hbs⟩
  case single hi =>
    have ⟨e, he⟩ := hi hl (hy.trans (List.append_nil _))
    exact ⟨e, .single he⟩
  case binary op t u _ _ hi hj =>
    obtain ⟨before, _, rfl, hbefore, hy⟩ := List.map_eq_append_iff.mp hy
    obtain ⟨token, after, rfl, hk, hafter⟩ := List.map_eq_cons_iff.mp hy
    obtain ⟨qs, rest, rfl, hqs, hrest⟩ := hl.of_append_tokens
    obtain ⟨bs, _, rs, rfl, hbs, hs, hrs⟩ := hrest.of_cons_token
    obtain rfl := hs.eq_sign (hk ▸ mem_signs op)
    have ⟨e, he⟩ := hi hqs hbefore
    have ⟨f, hf⟩ := hj hrs (hafter.trans (List.append_nil _))
    exact ⟨_, by simpa using Written.binary (he.blanksAfter hbs) hf⟩

end

-- How an input is parsed, stage by stage.

section

variable {calculator : Calculator} {mode : Evaluation} {input : String} {tokens : List (Token Terminal)}

theorem parse_of_lexical {e : LexicalError}
    (h : Lexicon.arithmetic.tokenize calculator.grammar.toVocabulary input = .error e) :
    calculator.parse mode input = .error (.lexical e) := by
  simp [parse, tokenize, h, Except.mapError, bind, Except.bind]

theorem parse_of_syntactic {e : ParseError}
    (h : Lexicon.arithmetic.tokenize calculator.grammar.toVocabulary input = .ok tokens)
    (hr : calculator.table.machine.parse? (stepLimit tokens) tokens = some (.error e)) :
    calculator.parse mode input = .error (.syntactic e) := by
  simp [parse, tokenize, run, h, hr, Except.mapError, bind, Except.bind]

theorem parse_of_value {output : Output ProductionId} {v : Value}
    (h : Lexicon.arithmetic.tokenize calculator.grammar.toVocabulary input = .ok tokens)
    (hr : calculator.table.machine.parse? (stepLimit tokens) tokens = some (.ok output))
    (hv : calculator.evaluate mode output tokens = .ok (some v)) :
    calculator.parse mode input = .ok v.toExpr := by
  simp [parse, tokenize, run, h, hr, hv, Except.mapError, bind, Except.bind, pure, Except.pure]

end

section

variable {table : Table} {input : String} {ts : List (Token Terminal)} {e : Expr} {t : Tree} {p : Position}

theorem evaluate_eq (table : Table) (mode : Evaluation) (hw : t.WellFormed arithmetic)
    (hs : t.symbol = .nonterminal expr) (hy : ts.map Token.kind = t.yield) :
    evaluate ⟨arithmetic, table⟩ mode ⟨t.postorder, t.operations⟩ (ts ++ [.endOfInput p]) =
      .ok (t.value arithmetic none (ts ++ [.endOfInput p])) := by
  cases mode
  case bottomUp =>
    exact Grammar.evaluateBottomUp_postorder hw hs
      (fun _ _ p hp => sAttributed (Grammar.production?_mem hp)) hy rfl
  case topDown =>
    simp only [evaluate, hw.leftmost_postorder]
    exact Grammar.evaluateTopDown_preorder hw hs hy rfl

-- An input is cut along its pieces.
theorem cuts_input (input : String) :
    Cuts (pieces input.toList) (Lexicon.arithmetic.tokenize vocabulary input) :=
  cuts_tokens (fun _ => Lexicon.Piece.of_mem_pieces) .origin

theorem parse_eq_of_written (ht : Table.compile arithmetic = .ok table) (hc : table.conflicts = [])
    (mode : Evaluation) (h : Written Chain.sum input.toList e) :
    parse ⟨arithmetic, table⟩ mode input = .ok e := by
  have ⟨us, hus⟩ := h.exists_lexes
  have hcuts := cuts_input input
  cases htokens : Lexicon.arithmetic.tokenize vocabulary input
  all_goals rw [htokens] at hcuts
  case error => exact absurd hus (hcuts.right us)
  case ok tokens =>
    obtain ⟨ts, p, rfl, hts⟩ := hcuts
    have ⟨t, hr⟩ := h.exists_reads hts
    have hbound := (Shape.of_wellFormed hr.wellFormed hr.symbol).length_operations_le
    have hlimit : t.operations.length < stepLimit (ts ++ [.endOfInput p]) := by
      rw [hr.yield, List.length_map] at hbound
      rw [stepLimit, List.length_append]
      omega
    have hkinds : (ts ++ [Token.endOfInput p]).map Token.kind = t.yield ++ .eof :: [] := by
      simp [hr.yield, Token.endOfInput]
    obtain ⟨a, ha, rfl⟩ := Table.compile_canonical ht
    have hparse := ha.parse?_of_tree augmented short hc hr.wellFormed hr.symbol hkinds hlimit
    have hvalue := evaluate_eq (p := p) (.ofAutomaton arithmetic a) mode hr.wellFormed hr.symbol hr.yield.symm
    rw [hr.value] at hvalue
    exact parse_of_value htokens hparse hvalue

-- The failures that blame a character or a token of the input.
inductive Blames : Failure → Prop
  | character {c : Char} {p : Position} : Blames (.lexical (.unexpected c p))
  | token {lexeme : String} {p : Position} : Blames (.syntactic (.unexpectedToken lexeme p))

-- The first token that ends the input is the last of all.
theorem eq_of_append_endOfInput {us rest : List (Token Terminal)} {token : Token Terminal}
    (hts : ∀ t ∈ ts, t.kind ≠ .eof) (hk : token.kind = .eof)
    (h : ts ++ [.endOfInput p] = us ++ token :: rest) : ts = us := by
  obtain ⟨vs, rfl, hvs⟩ | ⟨vs, rfl, hvs⟩ := List.append_eq_append_iff.mp h
  · cases vs
    case nil => exact (List.append_nil _).symm
    case cons => simp at hvs
  · cases vs
    case nil => exact List.append_nil _
    case cons =>
      obtain ⟨rfl, _⟩ := List.cons.inj hvs
      exact absurd hk (hts token (by simp))

theorem exists_written_of_output {out : Output ProductionId} {limit : Nat}
    (ht : Table.compile arithmetic = .ok table) (hts : Lexes (pieces input.toList) ts)
    (h : table.machine.parse? limit (ts ++ [.endOfInput p]) = some (.ok out)) :
    ∃ e, Written Chain.sum input.toList e := by
  have ⟨t, hd⟩ := Table.exists_describes_of_parse augmented ht h
  have ⟨shifted, token, rest, hsplit, hy, hk⟩ := hd.covered
  have hshifted := eq_of_append_endOfInput hts.kind_ne_eof hk hsplit
  have hshape : Shape Chain.sum t := .of_wellFormed hd.wellFormed hd.symbol
  have ⟨e, he⟩ := hshape.exists_written hts (hshifted ▸ hy)
  rw [Lexicon.flatten_pieces] at he
  exact ⟨e, he⟩

-- A text that is not written for an expression is blamed.
theorem written_or_blamed (ht : Table.compile arithmetic = .ok table) (mode : Evaluation) (input : String) :
    (∃ e, Written Chain.sum input.toList e) ∨
      ∃ f, parse ⟨arithmetic, table⟩ mode input = .error f ∧ Blames f := by
  have hcuts := cuts_input input
  cases htokens : Lexicon.arithmetic.tokenize vocabulary input
  all_goals rw [htokens] at hcuts
  case error =>
    obtain ⟨⟨c, p, rfl⟩, _⟩ := hcuts
    exact .inr ⟨_, parse_of_lexical htokens, .character⟩
  case ok tokens =>
    obtain ⟨ts, p, rfl, hts⟩ := hcuts
    have ⟨r, hr⟩ := exists_run ht (ts ++ [.endOfInput p])
    cases r
    case ok => exact .inl (exists_written_of_output ht hts hr)
    case error =>
      obtain ⟨token, _, rfl⟩ := Table.exists_unexpected_of_parse augmented ht (by decide) rfl hr
      exact .inr ⟨_, parse_of_syntactic htokens hr, .token⟩

theorem parse_eq_ok_iff_written : ∃ c, build = .ok c ∧ ∀ (mode : Evaluation) (input : String),
    (∀ e, c.parse mode input = .ok e ↔ Written Chain.sum input.toList e) ∧
      ∀ f, c.parse mode input = .error f → Blames f := by
  have ⟨table, ht, hc⟩ := exists_compile
  refine ⟨⟨arithmetic, table⟩, ofDeclarations_eq define_eq ht hc, fun mode input => ?_⟩
  obtain ⟨e, he⟩ | ⟨f, hf, hblames⟩ := written_or_blamed ht mode input
  · have hparse := parse_eq_of_written ht hc mode he
    refine ⟨fun e' => ⟨fun h => ?_, parse_eq_of_written ht hc mode⟩, fun f hf => ?_⟩
    · cases hparse.symm.trans h
      exact he
    · cases hparse.symm.trans hf
  · refine ⟨fun e => ⟨fun h => ?_, fun h => ?_⟩, fun f' hf' => ?_⟩
    · cases hf.symm.trans h
    · cases hf.symm.trans (parse_eq_of_written ht hc mode h)
    · cases hf.symm.trans hf'
      exact hblames

end
end CanonicalLR.Calculator
