import CanonicalLR.Parser.Machine
import CanonicalLR.Proofs.Run

namespace CanonicalLR.Machine

variable {σ τ ν ρ : Type}

inductive Moves (m : Machine σ τ ν ρ) : Config σ τ ρ → Config σ τ ρ → Prop
  | shift {top next : σ} {below : List σ} {token : Token τ} {rest : List (Token τ)} {labels : List ρ}
    {operations : List Operation} (action : m.action top token.kind = some (.shift next)) :
    Moves m ⟨top :: below, token :: rest, labels, operations⟩
      ⟨next :: top :: below, rest, labels, .shift :: operations⟩
  | reduce {top base next : σ} {below deeper : List σ} {token : Token τ} {rest : List (Token τ)}
    {label : ρ} {labels : List ρ} {operations : List Operation} {head : ν} {length : Nat}
    (action : m.action top token.kind = some (.reduce label head length))
    (drop : (top :: below).drop length = base :: deeper) (goto : m.goto base head = some next) :
    Moves m ⟨top :: below, token :: rest, labels, operations⟩
      ⟨next :: base :: deeper, token :: rest, label :: labels, .reduce :: operations⟩

variable {m : Machine σ τ ν ρ} {c c' d d' : Config σ τ ρ} {out : Output ρ}

theorem reduceStack_eq_ok {head : ν} {length : Nat} {stack stack' : List σ} :
    m.reduceStack head length stack = .ok stack' ↔
      ∃ base deeper next, stack.drop length = base :: deeper ∧ m.goto base head = some next ∧
        stack' = next :: base :: deeper := by
  simp only [reduceStack]
  split
  case isTrue h => simp [List.drop_eq_nil_of_le h]
  case isFalse =>
    split
    case h_1 h => simp [h]
    case h_2 base deeper h =>
      rw [h]
      split
      case h_1 next hg =>
        constructor
        case mp =>
          rintro ⟨⟩
          exact ⟨base, deeper, next, rfl, hg, rfl⟩
        case mpr =>
          rintro ⟨_, _, _, ⟨⟩, hn, rfl⟩
          rw [hg] at hn
          cases hn
          rfl
      case h_2 hg => simp [hg]

theorem step_eq_next : m.step c = .next c' ↔ m.Moves c c' := by
  constructor
  case mp =>
    intro h
    have ⟨stack, tokens, labels, operations⟩ := c
    simp only [step] at h
    split at h
    case h_1 => contradiction
    case h_2 => contradiction
    case h_3 top below token rest =>
      split at h
      case h_1 next ha =>
        cases h
        exact .shift ha
      case h_2 label head length ha =>
        split at h <;> cases h
        case h_1 hr =>
          obtain ⟨base, deeper, next, hd, hg, rfl⟩ := reduceStack_eq_ok.mp hr
          exact .reduce ha hd hg
      case h_3 => contradiction
      case h_4 => contradiction
  case mpr =>
    intro h
    cases h
    case shift ha => simp [step, ha]
    case reduce ha hd hg =>
      have := reduceStack_eq_ok.mpr ⟨_, _, _, hd, hg, rfl⟩
      simp [step, ha, this]

theorem step_eq_ok : m.step c = .done (.ok out) ↔
    ∃ top below token rest, c.stack = top :: below ∧ c.rest = token :: rest ∧
      m.action top token.kind = some .accept ∧
      out = ⟨c.reductions.reverse, c.operations.reverse⟩ := by
  have ⟨stack, tokens, labels, operations⟩ := c
  simp only [step]
  split
  case h_1 => simp
  case h_2 => simp
  case h_3 top below token rest =>
    split
    case h_1 ha => simp [ha]
    case h_2 ha =>
      split <;> simp [ha]
    case h_3 ha => simp [ha, eq_comm]
    case h_4 ha => simp [ha]

-- How a machine stops without accepting.
inductive Fails (m : Machine σ τ ν ρ) : Config σ τ ρ → ParseError → Prop
  | empty {tokens : List (Token τ)} {labels : List ρ} {operations : List Operation} :
    Fails m ⟨[], tokens, labels, operations⟩ .emptyStack
  | exhausted {top : σ} {below : List σ} {labels : List ρ} {operations : List Operation} :
    Fails m ⟨top :: below, [], labels, operations⟩ .tokensExhausted
  | unexpected {top : σ} {below : List σ} {token : Token τ} {rest : List (Token τ)}
    {labels : List ρ} {operations : List Operation} (action : m.action top token.kind = none) :
    Fails m ⟨top :: below, token :: rest, labels, operations⟩
      (.unexpectedToken token.lexeme token.position)
  | stuck {top : σ} {below : List σ} {token : Token τ} {rest : List (Token τ)} {label : ρ}
    {labels : List ρ} {operations : List Operation} {head : ν} {length : Nat} {e : ParseError}
    (action : m.action top token.kind = some (.reduce label head length))
    (reduce : m.reduceStack head length (top :: below) = .error e) :
    Fails m ⟨top :: below, token :: rest, labels, operations⟩ e

theorem step_eq_error {e : ParseError} : m.step c = .done (.error e) ↔ m.Fails c e := by
  constructor
  case mp =>
    intro h
    have ⟨stack, tokens, labels, operations⟩ := c
    simp only [step] at h
    split at h
    case h_1 => cases h; exact .empty
    case h_2 => cases h; exact .exhausted
    case h_3 top below token rest =>
      split at h
      case h_1 => contradiction
      case h_2 label head length ha =>
        split at h <;> cases h
        exact .stuck ha ‹_›
      case h_3 => cases h
      case h_4 ha => cases h; exact .unexpected ha
  case mpr =>
    intro h
    cases h
    case empty => rfl
    case exhausted => rfl
    case unexpected ha => simp [step, ha]
    case stuck ha hr => simp [step, ha, hr]

theorem reduceStack_ne_unexpected {head : ν} {length : Nat} {stack : List σ} {lexeme : String}
    {position : Position} :
    m.reduceStack head length stack ≠ .error (.unexpectedToken lexeme position) := by
  simp only [reduceStack]
  split
  case isTrue => simp
  case isFalse =>
    split
    case h_1 => simp
    case h_2 => split <;> simp

theorem step_eq_unexpected {lexeme : String} {position : Position} :
    m.step c = .done (.error (.unexpectedToken lexeme position)) ↔
      ∃ top below token rest, c.stack = top :: below ∧ c.rest = token :: rest ∧
        m.action top token.kind = none ∧ token.lexeme = lexeme ∧ token.position = position := by
  rw [step_eq_error]
  constructor
  case mp =>
    intro h
    cases h
    case unexpected top below token rest _ _ ha =>
      exact ⟨top, below, token, rest, rfl, rfl, ha, rfl, rfl⟩
    case stuck hr => exact absurd hr reduceStack_ne_unexpected
  case mpr =>
    have ⟨stack, tokens, labels, operations⟩ := c
    rintro ⟨top, below, token, rest, rfl, rfl, ha, rfl, rfl⟩
    exact .unexpected ha

-- The tokens are only ever shortened.
theorem Moves.rest_suffix (h : m.Moves c c') : c'.rest <:+ c.rest := by
  cases h
  case shift => exact List.suffix_cons ..
  case reduce => exact List.suffix_rfl

theorem rest_suffix_of_reaches {n : Nat} (h : Step.Reaches m.step n c c') : c'.rest <:+ c.rest := by
  induction h
  case refl => exact List.suffix_rfl
  case next h _ hi => exact hi.trans (step_eq_next.mp h).rest_suffix

theorem lookup?_eq_some {r : Option (Action σ ν ρ)} : m.lookup? c = some r ↔
    ∃ top below token rest, c.stack = top :: below ∧ c.rest = token :: rest ∧
      m.action top token.kind = r := by
  have ⟨stack, tokens, labels, operations⟩ := c
  simp only [lookup?]
  split
  case h_1 => simp
  case h_2 hn =>
    cases stack
    case nil => simp
    case cons =>
      cases tokens
      case nil => simp
      case cons => exact absurd rfl (hn _ _ _ _ rfl)

-- The shifts so far tell which token is next.
theorem rest_eq_drop {n : Nat} {tokens : List (Token τ)}
    (h : Step.Reaches m.step n (m.start tokens) c) :
    c.rest = tokens.drop (c.operations.count .shift) := by
  refine h.invariant (P := fun c => c.rest = tokens.drop (c.operations.count .shift)) ?_ rfl
  intro c c' hc hs
  cases step_eq_next.mp hs
  case shift => rw [List.count_cons_self, ← List.tail_drop, ← hc, List.tail_cons]
  case reduce => simpa using hc

-- Two configurations that a machine cannot tell apart until only `left` tokens are left.
structure Alike (left : Nat) (c d : Config σ τ ρ) : Prop where
  stack : c.stack = d.stack
  reductions : c.reductions = d.reductions
  operations : c.operations = d.operations
  kinds : (c.rest.map Token.kind).take (c.rest.length - left) =
    (d.rest.map Token.kind).take (c.rest.length - left)

namespace Alike

variable {left n : Nat}

theorem start {tokens others : List (Token τ)} {k : Nat} (hk : k ≤ tokens.length)
    (h : (tokens.map Token.kind).take k = (others.map Token.kind).take k) :
    Alike (tokens.length - k) (m.start tokens) (m.start others) where
  stack := rfl
  reductions := rfl
  operations := rfl
  kinds := by
    rw [← Nat.sub_sub_self hk] at h
    exact h

-- The next token is of the same kind on both sides.
theorem next_kind {token : Token τ} {rest : List (Token τ)} (h : Alike left c d)
    (hc : c.rest = token :: rest) (hl : left < c.rest.length) :
    ∃ token' rest', d.rest = token' :: rest' ∧ token.kind = token'.kind ∧
      (rest.map Token.kind).take (rest.length - left) =
        (rest'.map Token.kind).take (rest.length - left) := by
  have hk := h.kinds
  rw [hc, List.length_cons] at hl
  rw [hc, List.length_cons, Nat.sub_add_comm (by omega)] at hk
  cases hd : d.rest
  case nil => simp [hd] at hk
  case cons token' rest' =>
    simp only [hd, List.map_cons, List.take_succ_cons, List.cons.injEq] at hk
    exact ⟨token', rest', rfl, hk.left, hk.right⟩

theorem moves (h : Alike left c d) (hl : left < c.rest.length) (hm : m.Moves c c') :
    ∃ d', m.Moves d d' ∧ Alike left c' d' := by
  have ⟨stack, tokens, labels, operations⟩ := d
  cases hm
  case shift token rest _ _ ha =>
    have ⟨token', rest', hd, hk, hr⟩ := h.next_kind rfl hl
    cases h.stack; cases h.reductions; cases h.operations; cases hd
    exact ⟨_, .shift (hk ▸ ha), rfl, rfl, rfl, hr⟩
  case reduce token rest _ _ _ _ _ ha hb hg =>
    have ⟨token', rest', hd, hk, hr⟩ := h.next_kind rfl hl
    cases h.stack; cases h.reductions; cases h.operations; cases hd
    exact ⟨_, .reduce (hk ▸ ha) hb hg, rfl, rfl, rfl, h.kinds⟩

theorem reaches (h : Alike left c d) (hr : Step.Reaches m.step n c c')
    (hl : left < c'.rest.length) : ∃ d', Step.Reaches m.step n d d' ∧ Alike left c' d' := by
  induction hr generalizing d
  case refl => exact ⟨d, .refl d, h⟩
  case next c₁ c₂ c₃ hm hr hi =>
    have h₂ := (rest_suffix_of_reaches hr).length_le
    have h₁ := (step_eq_next.mp hm).rest_suffix.length_le
    have ⟨d₂, hd, h⟩ := h.moves (by omega) (step_eq_next.mp hm)
    have ⟨d₃, hr, h⟩ := hi h hl
    exact ⟨d₃, .next (step_eq_next.mpr hd) hr, h⟩

end Alike
end CanonicalLR.Machine
