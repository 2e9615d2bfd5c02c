import CanonicalLR.Proofs.Completeness
import CanonicalLR.Proofs.Soundness
import CanonicalLR.Proofs.Validity

namespace CanonicalLR

section

open CanonicalLR.Tree Automaton
open CanonicalLR.Symbol (word)

variable {V : Type} {g : Grammar V} {a : Automaton} {u v w : List Terminal}

namespace Grammar

-- The string begins a sentence that is followed by the end of input.
def Viable (g : Grammar V) (u : List Terminal) : Prop := ∃ w, g.Sentence w ∧ u <+: w ++ [.eof]

theorem Viable.of_prefix (h : g.Viable v) (hu : u <+: v) : g.Viable u := by
  have ⟨w, hw, hv⟩ := h
  exact ⟨w, hw, hu.trans hv⟩

-- A derivation from the start symbol holds no nonterminals but the start symbol and those of bodies.
theorem productive_of_bodies (hs : ∃ w, g.Derives [.nonterminal g.startSymbol] (word w))
    (hb : ∀ p ∈ g.productions, ∀ n, .nonterminal n ∈ p.body → ∃ w, g.Derives [.nonterminal n] (word w)) :
    g.Productive := by
  intro n α β h
  refine h.forall_mem (P := fun x => ∃ w, g.Derives [x] (word w)) ?bodies ?start (.nonterminal n) (by simp)
  case bodies =>
    intro p hp x hx
    cases x
    case terminal t => exact ⟨[t], .refl⟩
    case nonterminal n => exact hb p hp n hx
  case start => simpa using hs

theorem Derives.sentence (hg : g.Augmented) (h : g.Derives [.nonterminal .start] (word w)) :
    g.Sentence w := by
  refine (h.of_start hg).resolve_left fun hs => ?_
  cases w <;> cases hs

end Grammar

namespace Center.Valid

variable {c : Center} {t x : Terminal} {γ : List Symbol} {p : Production V}

-- A string that leads up to the marker, and a string that leads on to the end of the body, are parts
-- of a sentence.
theorem sentence (hg : g.Augmented) (h : c.Valid g γ t) (hp : g.production? c.production = some p)
    (hu : g.Derives γ.reverse (word u)) (hv : g.Derives (p.body.drop c.position.toNat) (word v)) :
    ∃ w, g.Sentence (u ++ v ++ w) ∧ (w ++ [Terminal.eof]).head? = some t := by
  have ⟨_, ids, w, hp', hd, ht⟩ := h.rightmost
  cases hp.symm.trans hp'
  refine ⟨w, Grammar.Derives.sentence hg ?_, ht⟩
  simpa using hd.derives.trans (hu.append hv).append_right

theorem viable (hg : g.Augmented) (hp : g.Productive) (h : c.Valid g γ t)
    (hu : g.Derives γ.reverse (word u)) : g.Viable u := by
  have ⟨p, ids, w, hl, hd, _⟩ := h.rightmost
  have ⟨v, hv⟩ := hp.exists_word hg hd.derives
  have ⟨w, hw, _⟩ := h.sentence hg hl hu hv
  exact ⟨u ++ v ++ w, hw, by simp⟩

end Center.Valid

namespace Builds

variable {c : Config StateId Terminal ProductionId} {trees : List Tree} {top : StateId}
variable {below : List StateId} {token : Token Terminal} {tokens rest : List (Token Terminal)} {k : Nat}

theorem derives (h : Builds g a tokens c trees) :
    g.Derives (trees.map symbol).reverse (word (yieldAll trees.reverse)) := by
  have : Forest g (trees.map symbol).reverse trees.reverse := {
    wellFormed := fun t ht => h.wellFormed t (List.mem_reverse.mp ht)
    symbols := List.map_reverse }
  exact this.derives

theorem viable (hg : g.Augmented) (hl : g.Short) (hp : g.Productive) (ha : Canonical g a)
    (h : Builds g a tokens c trees) (hc : c.stack = top :: below) :
    g.Viable (yieldAll trees.reverse) := by
  have hs := hc ▸ h.spine
  have ⟨s, hq⟩ := hs.state ha
  have ⟨i, hi⟩ := hs.exists_mem ha hq
  have hv := hs.valid hg hl hp ha hq
  have ⟨t, ht⟩ := hv.lookahead i hi
  exact (hv.valid i t ht).viable hg hp h.derives

theorem yield_eq (h : Builds g a tokens c trees) (hk : c.rest = tokens.drop k) :
    yieldAll trees.reverse = (tokens.take k).map Token.kind := by
  have ⟨shifted, ht, hy⟩ := h.shifted
  have : shifted ++ tokens.drop k = tokens.take k ++ tokens.drop k := by
    rw [List.take_append_drop, ← hk, ← ht]
  rw [← hy, List.append_cancel_right this]

end Builds

namespace Table

variable {c : Config StateId Terminal ProductionId} {top : StateId} {below : List StateId}
variable {token : Token Terminal} {tokens rest : List (Token Terminal)} {n k limit : Nat}

-- If the tokens up to the next one began a sentence, then the machine would come to the same cell with
-- the sentence, and go on.
theorem not_viable_of_unexpected (hg : g.Augmented) (hshort : g.Short) (ha : Canonical g a)
    (hc : (ofAutomaton g a).conflicts = [])
    (h : Step.Reaches (ofAutomaton g a).machine.step n ((ofAutomaton g a).machine.start tokens) c)
    (hl : (ofAutomaton g a).machine.lookup? c = some none) :
    ¬ g.Viable ((tokens.take (c.operations.count .shift + 1)).map Token.kind) := by
  intro ⟨w, hw, hprefix⟩
  have ⟨top, below, token, rest, hs, hr, hact⟩ := Machine.lookup?_eq_some.mp hl
  obtain ⟨tree, ht, hsymbol, rfl⟩ := hg.sentence_iff.mp hw
  have hk := Machine.rest_eq_drop h
  have hlen : c.rest.length = tokens.length - c.operations.count .shift := by
    rw [hk, List.length_drop]
  have hpos : 0 < c.rest.length := by simp [hr]
  -- The sentence as tokens, which the machine cannot tell from the given ones up to the next one.
  let others := Token.ofKinds (tree.yield ++ [.eof])
  have htake := List.prefix_iff_eq_take.mp hprefix
  rw [List.length_map, List.length_take, Nat.min_eq_left (by omega), List.map_take,
    ← Token.map_kind_ofKinds (w := tree.yield ++ [Terminal.eof])] at htake
  have hstart := Machine.Alike.start (m := (ofAutomaton g a).machine) (by omega) htake
  have ⟨d, hd, halike⟩ := hstart.reaches h (by omega)
  have ⟨token', rest', hr', hkind, _⟩ := halike.next_kind hr (by omega)
  have herror := Machine.step_eq_unexpected.mpr
    ⟨top, below, token', rest', halike.stack ▸ hs, hr', hkind ▸ hact, rfl, rfl⟩
  have haccept := ha.parse?_of_tree hg hshort hc ht hsymbol
    (Token.map_kind_ofKinds : others.map Token.kind = tree.yield ++ [.eof])
    (by omega : tree.operations.length < n + (tree.operations.length + 1))
  rw [Machine.parse?, hd.run, Step.run, herror] at haccept
  cases haccept

end Table

end

open Example.Brackets in
theorem Example.Brackets.productive : grammar.Productive := by
  have hs : ∃ w, grammar.Derives [.nonterminal s] (Symbol.word w) := by
    refine ⟨[a], ?_⟩
    simpa [Tree.symbol, Tree.yield, Tree.yieldAll, atom] using wellFormed_atom.rightmost.derives
  have hb : ∀ p ∈ grammar.productions, ∀ x ∈ p.body, x.nonterminal?.all (· = s) := by decide
  refine Grammar.productive_of_bodies hs fun p hp n hn => ?_
  have : n = s := by simpa [Symbol.nonterminal?] using hb p hp _ hn
  exact this ▸ hs

end CanonicalLR
