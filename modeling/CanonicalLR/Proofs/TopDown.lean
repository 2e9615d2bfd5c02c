import CanonicalLR.Proofs.Arithmetic.Inheriting
import CanonicalLR.Proofs.Attribution
import CanonicalLR.Proofs.Traversal

namespace CanonicalLR

open CanonicalLR.Tree

variable {V : Type} {g : Grammar V} {t u : Tree} {ts us : List Tree} {body body' : List Symbol}
variable {derivation : List ProductionId} {tokens : List (Token Terminal)}

namespace TopDown

variable {c c₁ c' : Cursor}

-- A forest for a string of symbols has been read between two cursors.
structure Covers (g : Grammar V) (body : List Symbol) (ts : List Tree) (c c' : Cursor) : Prop where
  forest : Forest g body ts
  derivation : c.derivation = preorderAll ts ++ c'.derivation
  tokens : ∃ shifted, c.tokens = shifted ++ c'.tokens ∧ shifted.map Token.kind = yieldAll ts

namespace Covers

theorem nil : Covers g [] [] c c where
  forest := .nil
  derivation := rfl
  tokens := ⟨[], rfl, rfl⟩

theorem append (h₁ : Covers g body ts c c₁) (h₂ : Covers g body' us c₁ c') :
    Covers g (body ++ body') (ts ++ us) c c' where
  forest := h₁.forest.append h₂.forest
  derivation := by
    rw [h₁.derivation, h₂.derivation, preorderAll_append, List.append_assoc]
  tokens := by
    have ⟨first, htokens, hfirst⟩ := h₁.tokens
    have ⟨others, htokens', hothers⟩ := h₂.tokens
    refine ⟨first ++ others, by rw [htokens, htokens', List.append_assoc], ?_⟩
    rw [List.map_append, hfirst, hothers, yieldAll_append]

theorem leaf {a : Terminal} {token : Token Terminal} (h : c.shift a = .ok (token, c')) :
    Covers g [.terminal a] [.leaf a] c c' := by
  simp only [Cursor.shift] at h
  split at h
  case h_1 => contradiction
  case h_2 token tokens ht =>
    split at h <;> cases h
    case isTrue hk => exact ⟨.singleton (.leaf a), rfl, [token], ht, congrArg (· :: []) hk⟩

theorem node {n : Nonterminal} {p : Production V} (he : c.expand g n = .ok (p, c₁))
    (h : Covers g p.body ts c₁ c') : Covers g [.nonterminal n] [.node p.id p.head ts] c c' := by
  simp only [Cursor.expand] at he
  split at he
  case h_1 => contradiction
  case h_2 id rest hd =>
    split at he
    case h_2 => contradiction
    case h_1 hp =>
      split at he <;> cases he
      case isTrue hn =>
        obtain rfl := Grammar.production?_id hp
        obtain ⟨hf, hrest, shifted, ht, hy⟩ := h
        refine ⟨hn ▸ .node hp hf, hd.trans ?_, shifted, ht, ?_⟩
        · simpa [preorderAll, preorder] using hrest
        · simpa [yieldAll, yield] using hy

end Covers

variable [OfLexeme V] {inherited value : Option V} {p : Production V} {depth : Nat}

-- Whatever a visit returns, it has read a forest for the body of its production.
def Reads (g : Grammar V) (v : Visit V) : Prop :=
  ∀ (p : Production V) (inherited : Option V) (c : Cursor) (value : Option V) (c' : Cursor),
    v p inherited c = .ok (value, c') → ∃ ts, Covers g p.body ts c c'

theorem Reads.visitBody {v : Visit V} {a : Attributes V} {i : Nat} {args args' : Args V}
    (hv : Reads g v) (h : visitBody g v a body i args c = .ok (args', c')) :
    ∃ ts, Covers g body ts c c' := by
  induction body generalizing i args c
  case nil =>
    cases h
    exact ⟨[], .nil⟩
  case cons s body hi =>
    cases s
    case terminal b =>
      simp only [TopDown.visitBody] at h
      split at h
      case h_1 => contradiction
      case h_2 hs =>
        obtain ⟨ts, hts⟩ := hi h
        exact ⟨.leaf b :: ts, (Covers.leaf hs).append hts⟩
    case nonterminal n =>
      simp only [TopDown.visitBody] at h
      split at h
      case h_1 => contradiction
      case h_2 p _ he =>
        split at h
        case h_1 => contradiction
        case h_2 hval =>
          obtain ⟨children, hc⟩ := hv _ _ _ _ _ hval
          obtain ⟨ts, hts⟩ := hi h
          exact ⟨.node p.id p.head children :: ts, (Covers.node he hc).append hts⟩

-- The induction is on the depth of the descent.
theorem reads_visit : Reads g (visit g depth) := by
  induction depth
  case zero =>
    intro p inherited c value c' h
    cases h
  case succ depth hi =>
    intro p inherited c value c' h
    simp only [visit] at h
    split at h <;> cases h
    case h_2 hb => exact hi.visitBody hb

end TopDown

namespace Tree

-- The derivation of a tree comes first in a list of productions, and its string in front of an end of input.
-- The first production is the one at the root.
structure Heads (g : Grammar V) (t : Tree) (derivation : List ProductionId)
    (tokens : List (Token Terminal)) : Prop where
  rooted : t.Rooted g
  derivation : t.preorder <+: derivation
  covered : ∃ shifted token rest, tokens = shifted ++ token :: rest ∧
    shifted.map Token.kind = t.yield ∧ token.kind = .eof

theorem Heads.unique (ht : t.Heads g derivation tokens) (hu : u.Heads g derivation tokens) : t = u := by
  have ⟨l, hl⟩ := ht.derivation
  have ⟨l', hl'⟩ := hu.derivation
  exact (ht.rooted.preorder_append_inj hu.rooted (hl.trans hl'.symm)).left

end Tree

namespace Grammar

variable [OfLexeme V] {v : Option V}

theorem evaluateTopDown_heads (h : t.Heads g derivation tokens) :
    g.evaluateTopDown derivation tokens = .ok (t.value g none tokens) := by
  obtain ⟨⟨hw, n, hn⟩, ⟨rest, rfl⟩, shifted, token, others, rfl, hy, hk⟩ := h
  exact evaluateTopDown_append hw hn hy hk

theorem exists_heads_of_evaluateTopDown (hd : derivation ≠ []) (ht : tokens ≠ [])
    (h : g.evaluateTopDown derivation tokens = .ok v) : ∃ t : Tree, t.Heads g derivation tokens := by
  simp only [evaluateTopDown] at h
  split at h
  case h_1 => contradiction
  case h_2 => contradiction
  case h_3 root derivation _ _ =>
    split at h
    case h_1 => contradiction
    case h_2 p hp =>
      split at h
      case h_1 => contradiction
      case h_2 c hv =>
        split at h
        case h_1 => contradiction
        case h_2 token rest hc =>
          split at h
          case isFalse => contradiction
          case isTrue hk =>
            obtain rfl := production?_id hp
            have ⟨ts, ⟨hf, hrest, shifted, htokens, hy⟩⟩ := TopDown.reads_visit _ _ _ _ _ hv
            exact ⟨.node p.id p.head ts, {
              rooted := .node hp hf.symbols.symm hf.wellFormed
              derivation := ⟨c.derivation, congrArg (p.id :: ·) hrest.symm⟩
              covered := ⟨shifted, token, rest, hc ▸ htokens, hy, hk⟩ }⟩

-- An evaluation attributes the one tree that comes first, and fails if there is none.
theorem evaluateTopDown_exact (hg : g.Moving) (hd : derivation ≠ []) (ht : tokens ≠ []) :
    (∀ v, g.evaluateTopDown derivation tokens = .ok v ↔
      ∃ t : Tree, t.Heads g derivation tokens ∧ v = t.attribution g none tokens) ∧
    ((∃ e, g.evaluateTopDown derivation tokens = .error e) ↔
      ¬ ∃ t : Tree, t.Heads g derivation tokens) ∧
    ∀ t u : Tree, t.Heads g derivation tokens → u.Heads g derivation tokens → t = u := by
  have hvalue {t : Tree} (h : t.Heads g derivation tokens) :
      g.evaluateTopDown derivation tokens = .ok (t.attribution g none tokens) := by
    rw [evaluateTopDown_heads h, h.rooted.wellFormed.value_eq_attribution hg]
  refine ⟨fun v => ⟨fun h => ?tree, ?value⟩, ⟨?none, fun h => ?failure⟩, fun t u => Heads.unique⟩
  case tree =>
    have ⟨t, hh⟩ := exists_heads_of_evaluateTopDown hd ht h
    exact ⟨t, hh, Except.ok.inj (h.symm.trans (hvalue hh))⟩
  case value =>
    rintro ⟨t, hh, rfl⟩
    exact hvalue hh
  case none =>
    rintro ⟨e, he⟩ ⟨t, hh⟩
    cases he.symm.trans (hvalue hh)
  case failure =>
    cases hr : g.evaluateTopDown derivation tokens
    case error e => exact ⟨e, rfl⟩
    case ok v => exact absurd (exists_heads_of_evaluateTopDown hd ht hr) h

end Grammar

namespace Example.Arithmetic.Inheriting

theorem Pattern.exists_template {n : Nonterminal} {a : Attributes Ast} {slot : Nat} {r : Rule Ast}
    (h : Pattern n body a) (hr : a.rule? slot = some r) : ∃ t : Template, t.rule = r := by
  have hm : some r ∈ a.slots := List.mem_of_getElem? (Option.join_eq_some_iff.mp hr)
  cases h <;> simp [Attributes.none, chained, extended, fitted] at hm
  case chain => exact hm.elim (fun h => ⟨_, h.symm⟩) fun h => ⟨_, h.symm⟩
  case extend => exact hm.elim (fun h => ⟨_, h.symm⟩) fun h => ⟨_, h.symm⟩
  all_goals exact ⟨_, hm.symm⟩

theorem moving : grammar.Moving := fun p hp slot r hr => by
  have ⟨t, ht⟩ := (pattern hp).exists_template hr
  exact ht ▸ t.moves_rule

-- `1 + 2`
def addition : List (Token Terminal) :=
  [⟨"1", num, ⟨1, 1⟩⟩, ⟨"+", plus, ⟨1, 3⟩⟩, ⟨"2", num, ⟨1, 5⟩⟩, .endOfInput ⟨1, 6⟩]

-- Without its last production, nothing ends the chain of summands.
def unfinished : List ProductionId := [⟨1⟩, ⟨5⟩, ⟨9⟩, ⟨8⟩, ⟨2⟩, ⟨5⟩, ⟨9⟩, ⟨8⟩]

end Example.Arithmetic.Inheriting

open Example.Arithmetic.Inheriting in
theorem Grammar.evaluateTopDown_exact_addition :
    (∃ t : Tree, t.Heads grammar (unfinished ++ [⟨4⟩, ⟨7⟩]) addition ∧
      some (.node "+" [.leaf "1", .leaf "2"]) = t.attribution grammar none addition) ∧
    ¬ ∃ t : Tree, t.Heads grammar unfinished addition := by
  have hn : addition ≠ [] := List.cons_ne_nil _ _
  have hu : unfinished ≠ [] := List.cons_ne_nil _ _
  have hf : unfinished ++ [⟨4⟩, ⟨7⟩] ≠ [] := List.append_ne_nil_of_left_ne_nil hu _
  have ⟨hvalue, _, _⟩ := evaluateTopDown_exact moving hf hn
  have ⟨_, hfailure, _⟩ := evaluateTopDown_exact moving hu hn
  exact ⟨(hvalue _).mp rfl, hfailure.mp ⟨.derivationExhausted, rfl⟩⟩

end CanonicalLR
