import CanonicalLR.Example.Grammars
import CanonicalLR.Proofs.Leftmost
import CanonicalLR.Proofs.Machine
import CanonicalLR.Proofs.Table

namespace CanonicalLR

section

open CanonicalLR.Tree Automaton

variable {V : Type} {g : Grammar V} {a : Automaton}

namespace Center

variable {c : Center} {x : Symbol} {ts : List Tree} {t u : Terminal}

-- The terminal may come next after the symbol that is next, if `u` comes after the body.
def Follows (g : Grammar V) (c : Center) (u t : Terminal) : Prop :=
  t ∈ (g.firstSets.sequence (c.rest g)).terminals ∨
    (g.firstSets.sequence (c.rest g)).epsilon ∧ t = u

-- Whatever the rest of the body derives, it begins with a terminal that may come next.
theorem exists_follows (token : Token Terminal) (rest : List (Token Terminal))
    {shifted : List (Token Terminal)} (hg : g.Augmented) (hf : Forest g (c.rest g) ts)
    (hy : shifted.map Token.kind = yieldAll ts) :
    ∃ token' rest', shifted ++ token :: rest = token' :: rest' ∧
      c.Follows g token.kind token'.kind := by
  have hd := hf.derives
  rw [← hy] at hd
  cases shifted
  case nil => exact ⟨token, rest, rfl, .inr ⟨hd.epsilon, rfl⟩⟩
  case cons token' shifted =>
    have ht := hd.declares hg.scoped (fun _ => declares_rest hg) token'.kind (by simp)
    exact ⟨token', shifted ++ token :: rest, rfl, .inl (hd.mem_sequence hg.scoped ht)⟩

end Center

-- Tokens of the given kinds.
def Token.ofKinds (w : List Terminal) : List (Token Terminal) := w.map (⟨"", ·, .origin⟩)

@[simp]
theorem Token.map_kind_ofKinds {w : List Terminal} : (ofKinds w).map kind = w := by
  simp [ofKinds, Function.comp_def]

-- How the machine follows a tree: it takes one step for each leaf and each node.
def Tree.Followed (g : Grammar V) (a : Automaton) (tree : Tree) : Prop :=
  ∀ (below : List StateId) (rest : List (Token Terminal)) (labels : List ProductionId)
    (operations : List Operation) {top : StateId} {shifted : List (Token Terminal)}
    {token : Token Terminal} {s : State} {c : Center} {u : Terminal},
    a.state? top = some s → s.items.Holds c u → c.next? g = some tree.symbol →
    c.Follows g u token.kind → shifted.map Token.kind = tree.yield →
    ∃ q, s.target? tree.symbol = some q ∧
      Step.Reaches (Table.ofAutomaton g a).machine.step tree.operations.length
        ⟨top :: below, shifted ++ token :: rest, labels, operations⟩
        ⟨q :: top :: below, token :: rest, tree.postorder.reverse ++ labels,
          tree.operations.reverse ++ operations⟩

namespace Tree

variable {t : Tree} {ts : List Tree}

theorem followed_leaf {x : Terminal} (hg : g.Augmented) (ha : Canonical g a)
    (hc : (Table.ofAutomaton g a).conflicts = []) : (leaf x).Followed g a := by
  intro below rest labels operations top shifted token s c u hs hh hn _ hy
  have ⟨q, _, hq, _⟩ := ha.exists_target hg hs hh hn
  obtain ⟨token', rfl, rfl⟩ := List.map_eq_singleton_iff.mp hy
  have hm := Table.mem_actions_shift.mpr ⟨s, hs, hq, c, hh.mem, hn⟩
  exact ⟨q, hq, .single <| Machine.step_eq_next.mpr <| .shift <| Table.action?_of_mem hc hm⟩

-- The trees of the rest of a body are followed one after the other.
theorem followed_forest (below : List StateId) (rest : List (Token Terminal))
    (labels : List ProductionId) (operations : List Operation) {top : StateId}
    {shifted : List (Token Terminal)} {token : Token Terminal} {s : State} {c : Center}
    {p : Production V} (hg : g.Augmented) (hl : p.Short) (ha : Canonical g a)
    (hts : ∀ t ∈ ts, t.WellFormed g) (hi : ∀ t ∈ ts, t.Followed g a)
    (hp : g.production? c.production = some p) (hb : p.body.drop c.position.toNat = ts.map symbol)
    (hs : a.state? top = some s) (hh : s.items.Holds c token.kind)
    (hy : shifted.map Token.kind = yieldAll ts) :
    ∃ top' below' s', (top' :: below').drop ts.length = top :: below ∧ a.state? top' = some s' ∧
      s'.items.Holds (c.skip ts.length) token.kind ∧
      Step.Reaches (Table.ofAutomaton g a).machine.step (operationsAll ts).length
        ⟨top :: below, shifted ++ token :: rest, labels, operations⟩
        ⟨top' :: below', token :: rest, (postorderAll ts).reverse ++ labels,
          (operationsAll ts).reverse ++ operations⟩ := by
  induction ts generalizing below labels operations top shifted s c
  case nil =>
    obtain rfl := List.map_eq_nil_iff.mp hy
    exact ⟨top, below, s, rfl, hs, by simpa using hh, .refl _⟩
  case cons t ts ih =>
    have ⟨hn, hr⟩ := Center.next?_of_drop_eq hp hb
    have hw := fun t ht => hts t (List.mem_cons_of_mem _ ht)
    -- The tokens of the first tree, and what comes next after them.
    obtain ⟨first, others, rfl, hy₁, hy₂⟩ := List.map_eq_append_iff.mp hy
    obtain ⟨token', rest', ht, hf⟩ := Center.exists_follows token rest hg ⟨hw, hr.symm⟩ hy₂
    obtain ⟨q, hq, h₁⟩ :=
      hi t List.mem_cons_self below rest' labels operations hs hh hn hf hy₁
    obtain ⟨q', s', hq', hs', hh'⟩ := ha.exists_target hg hs hh hn
    cases hq.symm.trans hq'
    obtain ⟨top', below', s'', hd, hs'', hh'', h₂⟩ := ih (c := c.advance) (top :: below)
      (t.postorder.reverse ++ labels) (t.operations.reverse ++ operations) hw
      (fun t ht => hi t (List.mem_cons_of_mem _ ht)) hp (Center.drop_advance hl hb) hs' hh' hy₂
    refine ⟨top', below', s'', ?_, hs'', ?_, ?_⟩
    · rw [List.length_cons, ← List.tail_drop, hd, List.tail_cons]
    · rwa [Center.skip_advance] at hh''
    · rw [← ht] at h₁
      simpa [operationsAll, postorderAll] using h₁.trans h₂

-- After the children of a node, the machine reduces them.
theorem reaches_node (below : List StateId) (rest : List (Token Terminal))
    (labels : List ProductionId) (operations : List Operation) {top : StateId}
    {shifted : List (Token Terminal)} {token : Token Terminal} {s : State} {c : Center}
    {p : Production V} (hg : g.Augmented) (hl : p.Short) (ha : Canonical g a)
    (hc : (Table.ofAutomaton g a).conflicts = []) (hp : g.production? p.id = some p)
    (hb : p.body = ts.map symbol) (hts : ∀ t ∈ ts, t.WellFormed g) (hi : ∀ t ∈ ts, t.Followed g a)
    (hs : a.state? top = some s) (hm : c ∈ s.items) (hn : c.next? g = some (.nonterminal p.head))
    (hh : s.items.Holds ⟨p.id, 0⟩ token.kind) (hy : shifted.map Token.kind = yieldAll ts) :
    ∃ q, s.target? p.head = some q ∧
      Step.Reaches (Table.ofAutomaton g a).machine.step (node p.id p.head ts).operations.length
        ⟨top :: below, shifted ++ token :: rest, labels, operations⟩
        ⟨q :: top :: below, token :: rest, (node p.id p.head ts).postorder.reverse ++ labels,
          (node p.id p.head ts).operations.reverse ++ operations⟩ := by
  have ⟨q, _, hq, _⟩ := ha.exists_target_of_mem hg hs hm hn
  have ⟨top', below', s', hd, hs', hh', hr⟩ :=
    followed_forest (c := ⟨p.id, 0⟩) below rest labels operations hg hl ha hts hi hp hb hs hh hy
  have hlength : p.body.length = ts.length := by rw [hb, List.length_map]
  have hend : (Center.skip ⟨p.id, 0⟩ ts.length).next? g = none :=
    Center.next?_skip_eq_none hl hp (by simp [hlength])
  have hreduce := Table.action?_of_mem hc <| Table.mem_actions_reduce.mpr ⟨s', hs', _, p, hh', hend,
    Center.predicted_ne_accept hg (Grammar.production?_mem hp) hn, hp, rfl, rfl, rfl⟩
  have hgoto := Table.goto?_eq_some.mpr ⟨s, hs, hq, c, hm, hn⟩
  have := hr.trans <| .single <| Machine.step_eq_next.mpr <| .reduce hreduce (hlength ▸ hd) hgoto
  exact ⟨q, hq, by simpa [Tree.operations, postorder] using this⟩

theorem followed_node {p : Production V} (hg : g.Augmented) (hl : p.Short) (ha : Canonical g a)
    (hc : (Table.ofAutomaton g a).conflicts = []) (hp : g.production? p.id = some p)
    (hb : p.body = ts.map symbol) (hts : ∀ t ∈ ts, t.WellFormed g) (hi : ∀ t ∈ ts, t.Followed g a) :
    (node p.id p.head ts).Followed g a := by
  intro below rest labels operations top shifted token s c u hs hh hn hf hy
  have hm := Grammar.mem_productionsOf.mpr ⟨Grammar.production?_mem hp, rfl⟩
  have hstart := (ha.closure hs).predicted_holds hh hn hm hf
  exact reaches_node below rest labels operations hg hl ha hc hp hb hts hi hs hh.mem hn hstart hy

theorem WellFormed.followed (hg : g.Augmented) (hl : g.Short) (ha : Canonical g a)
    (hc : (Table.ofAutomaton g a).conflicts = []) (ht : t.WellFormed g) : t.Followed g a := by
  induction ht
  case leaf => exact followed_leaf hg ha hc
  case node p ts hp hb hts hi => exact followed_node hg (hl.production? hp) ha hc hp hb hts hi

end Tree

namespace Automaton.Canonical

variable {tree : Tree} {tokens rest : List (Token Terminal)} {limit : Nat} {ws : List Terminal}

-- The root waits for the start symbol and then for the end of input.
theorem root_holds (ha : Canonical g a) :
    ∃ s, a.state? .root = some s ∧ s.items.Holds ⟨.accept, 0⟩ .eof := by
  have ⟨s, hs, hk⟩ := ha.root
  exact ⟨s, hs, (ha.closure hs).given_holds (hk ▸ ItemSet.holds_rootKernel.mpr ⟨rfl, rfl⟩)⟩

theorem parse?_of_tree (hg : g.Augmented) (hl : g.Short) (ha : Canonical g a)
    (hc : (Table.ofAutomaton g a).conflicts = []) (ht : tree.WellFormed g)
    (hs : tree.symbol = .nonterminal g.startSymbol)
    (hk : tokens.map Token.kind = tree.yield ++ .eof :: ws) (hlimit : tree.operations.length < limit) :
    (Table.ofAutomaton g a).machine.parse? limit tokens =
      some (.ok ⟨tree.postorder, tree.operations⟩) := by
  obtain ⟨shifted, _, rfl, hy, hrest⟩ := List.map_eq_append_iff.mp hk
  obtain ⟨token, rest, rfl, he, _⟩ := List.map_eq_cons_iff.mp hrest
  obtain ⟨s, hroot, hh⟩ := ha.root_holds
  obtain ⟨p, hp, _, hb⟩ := hg.accept
  have hn : (⟨.accept, 0⟩ : Center).next? g = some tree.symbol := by
    simp [Center.next?, hp, hb, hs]
  have hf : (⟨.accept, 0⟩ : Center).Follows g .eof token.kind := by
    refine .inr ⟨?_, he⟩
    simp [Center.rest, hp, hb, FirstSets.sequence_epsilon]
  obtain ⟨q, hq, hr⟩ := ht.followed hg hl ha hc [] rest [] [] hroot hh hn hf hy
  obtain ⟨_, t, hq', ht, hh'⟩ := ha.exists_target hg hroot hh hn
  cases hq.symm.trans hq'
  have haccept := Table.action?_of_mem hc <| Table.mem_actions_accept.mpr
    ⟨he, t, ht, _, hh'.mem, rfl, by simp [Center.next?, Center.advance, hp, hb]⟩
  have hdone : (Table.ofAutomaton g a).machine.step
      ⟨[q, .root], token :: rest, tree.postorder.reverse, tree.operations.reverse⟩ =
        .done (.ok ⟨tree.postorder, tree.operations⟩) :=
    Machine.step_eq_ok.mpr ⟨q, [.root], token, rest, rfl, rfl, haccept, by simp⟩
  obtain ⟨n, rfl⟩ := Nat.exists_eq_add_of_lt hlimit
  rw [Machine.parse?, Nat.add_assoc]
  refine hr.run.trans ?_
  simp [Step.run, List.append_nil, hdone]

-- The output for a string of terminals determines the tree.
theorem tree_unique {other : Tree} (hg : g.Augmented) (hl : g.Short) (ha : Canonical g a)
    (hc : (Table.ofAutomaton g a).conflicts = []) (ht : tree.WellFormed g)
    (hs : tree.symbol = .nonterminal g.startSymbol) (ho : other.WellFormed g)
    (hs' : other.symbol = .nonterminal g.startSymbol) (hy : other.yield = tree.yield) :
    other = tree := by
  let limit := tree.operations.length + other.operations.length + 1
  have hk : (Token.ofKinds (tree.yield ++ [.eof])).map Token.kind = tree.yield ++ [.eof] :=
    Token.map_kind_ofKinds
  have h₁ := parse?_of_tree hg hl ha hc ht hs hk (by omega : _ < limit)
  have h₂ := parse?_of_tree hg hl ha hc ho hs' (by rw [hk, hy]) (by omega : _ < limit)
  rw [h₁, Option.some.injEq, Except.ok.injEq, Output.mk.injEq] at h₂
  exact ho.postorder_inj ht (hs'.trans hs.symm) h₂.left.symm

end Automaton.Canonical

namespace Table

end Table

end

namespace Example.Brackets

def grammar : Grammar Ast where
  terminals := ["$eof", "LPAREN", "RPAREN", "A"]
  nonterminals := ["$start", "S"]
  productions := [
    ⟨.accept, .start, [.nonterminal s], .none⟩,
    ⟨⟨1⟩, s, [lparen, s, rparen],
      ⟨[some (Template.node "()" [take 2]).rule, none, none, none], false⟩⟩,
    ⟨⟨2⟩, s, [a], ⟨[some (take 1).rule, none], false⟩⟩]
  startSymbol := s

-- The first level of brackets is closed before the end of input, the deeper ones before a bracket.
def table : Table := ⟨[
  ⟨[(⟨1⟩, [.shift ⟨1⟩]), (⟨3⟩, [.shift ⟨2⟩])], [(⟨1⟩, [⟨3⟩])]⟩,
  ⟨[(⟨1⟩, [.shift ⟨4⟩]), (⟨3⟩, [.shift ⟨5⟩])], [(⟨1⟩, [⟨6⟩])]⟩,
  ⟨[(⟨0⟩, [.reduce ⟨2⟩ ⟨1⟩ 1])], []⟩,
  ⟨[(⟨0⟩, [.accept])], []⟩,
  ⟨[(⟨1⟩, [.shift ⟨4⟩]), (⟨3⟩, [.shift ⟨5⟩])], [(⟨1⟩, [⟨7⟩])]⟩,
  ⟨[(⟨2⟩, [.reduce ⟨2⟩ ⟨1⟩ 1])], []⟩,
  ⟨[(⟨2⟩, [.shift ⟨8⟩])], []⟩,
  ⟨[(⟨2⟩, [.shift ⟨9⟩])], []⟩,
  ⟨[(⟨0⟩, [.reduce ⟨1⟩ ⟨1⟩ 3])], []⟩,
  ⟨[(⟨2⟩, [.reduce ⟨1⟩ ⟨1⟩ 3])], []⟩]⟩

theorem define_eq : Grammar.define brackets = .ok grammar := by rfl

theorem compile_eq : Table.compile grammar = .ok table := by rfl

theorem conflicts_eq : table.conflicts = [] := by decide +kernel

theorem short : grammar.Short := by decide

def atom : Tree := .node ⟨2⟩ s [.leaf a]

def enclosed (t : Tree) : Tree := .node ⟨1⟩ s [.leaf lparen, t, .leaf rparen]

theorem wellFormed_atom : atom.WellFormed grammar :=
  .node ⟨⟨2⟩, s, [a], _⟩ _ rfl rfl (by simpa using .leaf a)

theorem wellFormed_enclosed {t : Tree} (ht : t.WellFormed grammar) (hs : t.symbol = .nonterminal s) :
    (enclosed t).WellFormed grammar :=
  .node ⟨⟨1⟩, s, [lparen, s, rparen], _⟩ _ rfl (by rw [List.map_cons, List.map_cons, hs]; rfl)
    (by simpa using ⟨.leaf lparen, ht, .leaf rparen⟩)

-- `((a))` and the end of input, after which there is another bracket.
def input : List (Token Terminal) := [
  ⟨"(", lparen, ⟨1, 1⟩⟩, ⟨"(", lparen, ⟨1, 2⟩⟩, ⟨"a", a, ⟨1, 3⟩⟩, ⟨")", rparen, ⟨1, 4⟩⟩,
  ⟨")", rparen, ⟨1, 5⟩⟩, .endOfInput ⟨1, 6⟩, ⟨")", rparen, ⟨1, 7⟩⟩]

end Example.Brackets

end CanonicalLR
