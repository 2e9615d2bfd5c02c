import CanonicalLR.Example.Grammars
import CanonicalLR.Proofs.Branching
import CanonicalLR.Proofs.Machine
import CanonicalLR.Proofs.Spine
import CanonicalLR.Proofs.Table

namespace CanonicalLR

open CanonicalLR.Tree Automaton

variable {V : Type} {g : Grammar V} {a : Automaton} {tokens : List (Token Terminal)}

-- The trees that a configuration has built so far. The latest tree comes first.
structure Builds (g : Grammar V) (a : Automaton) (tokens : List (Token Terminal))
    (c : Config StateId Terminal ProductionId) (trees : List Tree) : Prop where
  spine : Spine a c.stack (trees.map Tree.symbol)
  wellFormed : ∀ t ∈ trees, t.WellFormed g
  shifted : ∃ shifted, tokens = shifted ++ c.rest ∧
    shifted.map Token.kind = yieldAll trees.reverse
  reductions : c.reductions.reverse = postorderAll trees.reverse
  operations : c.operations.reverse = operationsAll trees.reverse

namespace Builds

variable {c c' : Config StateId Terminal ProductionId} {trees : List Tree}

theorem start : Builds g a tokens ((Table.ofAutomaton g a).machine.start tokens) [] where
  spine := .root
  wellFormed := by simp
  shifted := ⟨[], rfl, rfl⟩
  reductions := rfl
  operations := rfl

theorem shift {top next : StateId} {below : List StateId} {token : Token Terminal}
    {rest : List (Token Terminal)} {labels : List ProductionId} {operations : List Operation}
    {s : State} (h : Builds g a tokens ⟨top :: below, token :: rest, labels, operations⟩ trees)
    (hs : a.state? top = some s) (hn : s.target? token.kind = some next) :
    Builds g a tokens ⟨next :: top :: below, rest, labels, .shift :: operations⟩
      (.leaf token.kind :: trees) where
  spine := .push h.spine hs hn
  wellFormed t ht := by
    cases ht
    case head => exact .leaf _
    case tail ht => exact h.wellFormed t ht
  shifted := by
    have ⟨shifted, ht, hy⟩ := h.shifted
    exact ⟨shifted ++ [token], by simp [ht], by simp [hy, yieldAll, yield]⟩
  reductions := by
    have := h.reductions
    simp_all [postorderAll, postorder]
  operations := by
    have := h.operations
    simp_all [operationsAll, Tree.operations]

-- The latest trees are joined if their symbols are the body of a production.
theorem reduce {top base next : StateId} {below deeper : List StateId}
    {rest : List (Token Terminal)} {labels : List ProductionId} {operations : List Operation}
    {p : Production V} {s : State} {δ : List Symbol}
    (h : Builds g a tokens ⟨top :: below, rest, labels, operations⟩ trees)
    (hp : g.production? p.id = some p) (hb : trees.map Tree.symbol = p.body.reverse ++ δ)
    (hd : (top :: below).drop p.body.length = base :: deeper)
    (hs : a.state? base = some s) (hn : s.target? p.head = some next) :
    Builds g a tokens ⟨next :: base :: deeper, rest, p.id :: labels, .reduce :: operations⟩
      (.node p.id p.head (trees.take p.body.length).reverse :: trees.drop p.body.length) := by
  -- The trees split into the children of the new node and those below.
  obtain ⟨children, below', rfl, hc, hδ⟩ := List.map_eq_append_iff.mp hb
  have hl : children.length = p.body.length := by simpa using congrArg List.length hc
  have hspine := h.spine.drop (n := p.body.length) (by simp [hl])
  rw [← List.map_drop, hd] at hspine
  rw [List.take_left' hl, List.drop_left' hl] at *
  have hw t (ht : t ∈ children ++ below') := h.wellFormed t ht
  refine {
    spine := .push hspine hs hn
    wellFormed := ?wellFormed
    shifted := ?shifted
    reductions := ?reductions
    operations := ?operations }
  case wellFormed =>
    intro t ht
    cases ht
    case head =>
      refine .node p _ hp ?_ fun t ht => hw t (by simp_all)
      rw [List.map_reverse, hc, List.reverse_reverse]
    case tail ht => exact hw t (List.mem_append_right _ ht)
  case shifted =>
    have ⟨shifted, ht, hy⟩ := h.shifted
    exact ⟨shifted, ht, by simpa [yieldAll, yield] using hy⟩
  case reductions =>
    have := h.reductions
    simp_all [postorderAll, postorder]
  case operations =>
    have := h.operations
    simp_all [operationsAll, Tree.operations]

-- One step of the machine.
theorem moves (hg : g.Augmented) (ha : Canonical g a) (h : Builds g a tokens c trees)
    (hm : (Table.ofAutomaton g a).machine.Moves c c') : ∃ trees', Builds g a tokens c' trees' := by
  cases hm
  case shift hact =>
    have ⟨s, hs, hn, _⟩ := Table.mem_actions_shift.mp (Table.mem_actions_of_action? hact)
    exact ⟨_, h.shift hs hn⟩
  case reduce hact hd hgoto =>
    obtain ⟨s, hs, i, p, hi, hn, _, hp, rfl, rfl, rfl⟩ :=
      Table.mem_actions_reduce.mp (Table.mem_actions_of_action? hact)
    have ⟨_, δ, hf⟩ := h.spine.fits hg ha hs hi.mem
    have hr := hf.reduction hn
    have ⟨t, ht, hx, _⟩ := Table.goto?_eq_some.mp hgoto
    cases hp.symm.trans hf.lookup
    exact ⟨_, h.reduce (hg.lookup p (Grammar.production?_mem hp)) hr hd ht hx⟩

theorem reaches (hg : g.Augmented) (ha : Canonical g a) {n : Nat}
    (h : Step.Reaches (Table.ofAutomaton g a).machine.step n
      ((Table.ofAutomaton g a).machine.start tokens) c) : ∃ trees, Builds g a tokens c trees :=
  h.invariant (P := fun c => ∃ trees, Builds g a tokens c trees)
    (fun _ _ ⟨_, hb⟩ hs => hb.moves hg ha (Machine.step_eq_next.mp hs)) ⟨[], start⟩

-- A machine only accepts with a single tree, for the start symbol.
theorem accept {top : StateId} {below : List StateId} {t : Terminal} (hg : g.Augmented)
    (ha : Canonical g a) (h : Builds g a tokens c trees) (hc : c.stack = top :: below)
    (hact : (Table.ofAutomaton g a).action? top t = some .accept) :
    t = .eof ∧ ∃ tree, trees = [tree] ∧ tree.symbol = .nonterminal g.startSymbol := by
  obtain ⟨rfl, s, hs, i, hi, hi', hn⟩ :=
    Table.mem_actions_accept.mp (Table.mem_actions_of_action? hact)
  have ⟨p, δ, hf⟩ := (hc ▸ h.spine).fits hg ha hs hi
  have hr := hf.reduction hn
  have ⟨r, hr', _, hb⟩ := hg.accept
  cases (hi' ▸ hf.lookup).symm.trans hr'
  rw [hb, hf.accept hi'] at hr
  obtain ⟨tree, rfl, ht⟩ := List.map_eq_singleton_iff.mp hr
  exact ⟨rfl, tree, rfl, ht⟩

end Builds

-- The output describes a derivation tree for the tokens before an end of input.
structure Output.Describes (g : Grammar V) (tokens : List (Token Terminal)) (out : Output ProductionId)
    (tree : Tree) : Prop where
  wellFormed : tree.WellFormed g
  symbol : tree.symbol = .nonterminal g.startSymbol
  covered : ∃ shifted token rest, tokens = shifted ++ token :: rest ∧
    shifted.map Token.kind = tree.yield ∧ token.kind = .eof
  reductions : out.reductions = tree.postorder
  operations : out.operations = tree.operations

namespace Table

variable {table : Table} {limit : Nat} {out : Output ProductionId}

theorem exists_describes_of_parse (hg : g.Augmented) (ht : compile g = .ok table)
    (h : table.machine.parse? limit tokens = some (.ok out)) : ∃ tree, out.Describes g tokens tree := by
  obtain ⟨a, ha, rfl⟩ := compile_canonical ht
  have ⟨n, c, _, hr, hd⟩ := Step.reaches_of_run h
  have ⟨trees, hb⟩ := Builds.reaches hg ha hr
  obtain ⟨top, below, token, rest, hs, hrest, hact, rfl⟩ := Machine.step_eq_ok.mp hd
  obtain ⟨hk, tree, rfl, hsymbol⟩ := hb.accept hg ha hs hact
  have ⟨shifted, htokens, hy⟩ := hb.shifted
  refine ⟨tree, {
    wellFormed := hb.wellFormed tree (by simp)
    symbol := hsymbol
    covered := ⟨shifted, token, rest, hrest ▸ htokens, ?_, hk⟩
    reductions := ?_
    operations := ?_ }⟩
  · simpa [yieldAll] using hy
  · simpa [postorderAll] using hb.reductions
  · simpa [operationsAll] using hb.operations

end Table

namespace Example.DanglingElse

def grammar : Grammar Ast where
  terminals := ["$eof", "IF", "COND", "THEN", "ELSE", "OTHER"]
  nonterminals := ["$start", "STMT"]
  productions := [
    ⟨.accept, .start, [.nonterminal stmt], .none⟩,
    ⟨⟨1⟩, stmt, [ifKeyword, cond, thenKeyword, stmt],
      ⟨some (Template.node "if" [take 2, take 4]).rule :: List.replicate 4 none, false⟩⟩,
    ⟨⟨2⟩, stmt, [ifKeyword, cond, thenKeyword, stmt, elseKeyword, stmt],
      ⟨some (Template.node "if" [take 2, take 4, take 6]).rule :: List.replicate 6 none, false⟩⟩,
    ⟨⟨3⟩, stmt, [other], ⟨[some (take 1).rule, none], false⟩⟩]
  startSymbol := stmt

-- The conflict is in the state with the number 13.
def table : Table := ⟨[
  ⟨[(⟨1⟩, [.shift ⟨1⟩]), (⟨5⟩, [.shift ⟨2⟩])], [(⟨1⟩, [⟨3⟩])]⟩,
  ⟨[(⟨2⟩, [.shift ⟨4⟩])], []⟩,
  ⟨[(⟨0⟩, [.reduce ⟨3⟩ ⟨1⟩ 1])], []⟩,
  ⟨[(⟨0⟩, [.accept])], []⟩,
  ⟨[(⟨3⟩, [.shift ⟨5⟩])], []⟩,
  ⟨[(⟨1⟩, [.shift ⟨6⟩]), (⟨5⟩, [.shift ⟨7⟩])], [(⟨1⟩, [⟨8⟩])]⟩,
  ⟨[(⟨2⟩, [.shift ⟨9⟩])], []⟩,
  ⟨[(⟨0⟩, [.reduce ⟨3⟩ ⟨1⟩ 1]), (⟨4⟩, [.reduce ⟨3⟩ ⟨1⟩ 1])], []⟩,
  ⟨[(⟨0⟩, [.reduce ⟨1⟩ ⟨1⟩ 4]), (⟨4⟩, [.shift ⟨10⟩])], []⟩,
  ⟨[(⟨3⟩, [.shift ⟨11⟩])], []⟩,
  ⟨[(⟨1⟩, [.shift ⟨1⟩]), (⟨5⟩, [.shift ⟨2⟩])], [(⟨1⟩, [⟨12⟩])]⟩,
  ⟨[(⟨1⟩, [.shift ⟨6⟩]), (⟨5⟩, [.shift ⟨7⟩])], [(⟨1⟩, [⟨13⟩])]⟩,
  ⟨[(⟨0⟩, [.reduce ⟨2⟩ ⟨1⟩ 6])], []⟩,
  ⟨[(⟨0⟩, [.reduce ⟨1⟩ ⟨1⟩ 4]), (⟨4⟩, [.reduce ⟨1⟩ ⟨1⟩ 4, .shift ⟨14⟩])], []⟩,
  ⟨[(⟨1⟩, [.shift ⟨6⟩]), (⟨5⟩, [.shift ⟨7⟩])], [(⟨1⟩, [⟨15⟩])]⟩,
  ⟨[(⟨0⟩, [.reduce ⟨2⟩ ⟨1⟩ 6]), (⟨4⟩, [.reduce ⟨2⟩ ⟨1⟩ 6])], []⟩]⟩

theorem define_eq : Grammar.define danglingElse = .ok grammar := by rfl

theorem compile_eq : Table.compile grammar = .ok table := by rfl

-- `if c then if c then o else o`, where the machine gives the `else` to the outer `if`.
def input : List (Token Terminal) := [
  ⟨"if", ifKeyword, ⟨1, 1⟩⟩, ⟨"c", cond, ⟨1, 4⟩⟩, ⟨"then", thenKeyword, ⟨1, 6⟩⟩,
  ⟨"if", ifKeyword, ⟨1, 11⟩⟩, ⟨"c", cond, ⟨1, 14⟩⟩, ⟨"then", thenKeyword, ⟨1, 16⟩⟩,
  ⟨"o", other, ⟨1, 21⟩⟩, ⟨"else", elseKeyword, ⟨1, 23⟩⟩, ⟨"o", other, ⟨1, 28⟩⟩, .endOfInput ⟨1, 29⟩]

def output : Output ProductionId where
  reductions := [⟨3⟩, ⟨1⟩, ⟨3⟩, ⟨2⟩]
  operations := List.replicate 7 .shift ++ [.reduce, .reduce, .shift, .shift, .reduce, .reduce]

end Example.DanglingElse

end CanonicalLR
