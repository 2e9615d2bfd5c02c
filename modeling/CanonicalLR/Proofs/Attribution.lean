import CanonicalLR.Proofs.Evaluation

namespace CanonicalLR

open CanonicalLR.Tree

variable {V : Type}

-- What remains of an array when values are moved out of it.
structure Thinned (before after : List (Option V)) : Prop where
  length : after.length = before.length
  value : ∀ i : Nat, after[i]?.join = before[i]?.join ∨ after[i]?.join = none

namespace Thinned

variable {a b c : List (Option V)} {i : Nat}

theorem refl : Thinned a a where
  length := rfl
  value _ := .inl rfl

theorem trans (h₁ : Thinned a b) (h₂ : Thinned b c) : Thinned a c where
  length := h₂.length.trans h₁.length
  value i := by
    cases h₂.value i
    case inl h => exact h ▸ h₁.value i
    case inr h => exact .inr h

theorem take : Thinned a (a.set i none) where
  length := List.length_set
  value j := by
    rw [List.getElem?_set]
    split
    case isTrue => exact .inr (by split <;> rfl)
    case isFalse => exact .inl rfl

end Thinned

-- Where there is no value, none can be taken.
theorem set_none_of_join {l : List (Option V)} {i : Nat} (h : l[i]?.join = none) : l.set i none = l := by
  by_cases hl : i < l.length
  case pos =>
    have : l[i] = none := by simpa [hl] using h
    exact this ▸ List.set_getElem_self hl
  case neg => exact List.set_eq_of_length_le (Nat.le_of_not_lt hl)

namespace Args

variable {α β : Type} {a b c args : Args V} {v : Option V} {i j n : Nat}

structure Remains (before after : Args V) : Prop where
  inherited : Thinned before.inherited after.inherited
  synthesized : Thinned before.synthesized after.synthesized

theorem Remains.refl : a.Remains a where
  inherited := .refl
  synthesized := .refl

theorem Remains.trans (h₁ : a.Remains b) (h₂ : b.Remains c) : a.Remains c where
  inherited := h₁.inherited.trans h₂.inherited
  synthesized := h₁.synthesized.trans h₂.synthesized

theorem inherited?_setInherited : (args.setInherited i v).inherited? j =
    if i = j then if i < args.inherited.length then v else none else args.inherited? j := by
  simp only [inherited?, setInherited, List.getElem?_set]
  split
  · split <;> rfl
  · rfl

-- All that a rule does with the arrays is to read values and to take them.
def Moves (r : StateM (Args V) α) : Prop := ∀ args : Args V, args.Remains (r args).2

namespace Moves

theorem pure {x : α} : Moves (pure x : StateM (Args V) α) := fun _ => .refl

theorem get : Moves (get : StateM (Args V) (Args V)) := fun _ => .refl

theorem bind {x : StateM (Args V) α} {f : α → StateM (Args V) β} (hx : Moves x)
    (hf : ∀ a, Moves (f a)) : Moves (x >>= f) :=
  fun args => (hx args).trans (hf (x args).1 (x args).2)

theorem takeInherited : Moves (Args.takeInherited i : StateM (Args V) (Option V)) := fun _ => {
  inherited := .take
  synthesized := .refl }

theorem takeSynthesized : Moves (Args.takeSynthesized i : StateM (Args V) (Option V)) := fun _ => {
  inherited := .refl
  synthesized := .take }

end Moves

-- Nothing has been inherited yet at a position and behind it.
structure Fresh (n i : Nat) (args : Args V) : Prop where
  length : args.inherited.length = n
  inherited : ∀ j, i ≤ j → args.inherited? j = none

namespace Fresh

theorem initial : ((blank n).setInherited 0 v).Fresh n 1 where
  length := by simp [blank, setInherited]
  inherited j hj := by
    rw [inherited?_setInherited, if_neg (by omega)]
    exact inherited?_replicate

theorem remains (h : Fresh n i a) (hr : a.Remains b) : Fresh n i b where
  length := hr.inherited.length.trans h.length
  inherited j hj := (hr.inherited.value j).elim (fun he => he.trans (h.inherited j hj)) id

theorem next {v w : Option V} (h : Fresh n i args) :
    Fresh n (i + 1) ((args.setInherited i v).setSynthesized i w) where
  length := List.length_set.trans h.length
  inherited j hj := by
    have : (args.setInherited i v).inherited? j = none := by
      rw [inherited?_setInherited, if_neg (by omega)]
      exact h.inherited j (by omega)
    exact this

theorem setInherited_none (h : Fresh n i args) : args.setInherited i none = args := by
  rw [setInherited, set_none_of_join (h.inherited i (Nat.le_refl i))]

end Fresh
end Args

-- No rule puts values into the arrays, which have no operation for it.
def Grammar.Moving (g : Grammar V) : Prop :=
  ∀ p ∈ g.productions, ∀ slot r, p.attributes.rule? slot = some r → Args.Moves r

-- What the symbol at a position inherits, and what its rule leaves of the arrays. Without a rule nothing is
-- inherited.
def Attributes.inheritance (a : Attributes V) (position : Nat) (args : Args V) : Option V × Args V :=
  match a.rule? position with
  | some r => (some (r args).1, (r args).2)
  | Option.none => (Option.none, args)

namespace Tree

-- Terminals do not inherit.
def inheritance (a : Attributes V) (position : Nat) (args : Args V) : Tree → Option V × Args V
  | leaf _ => (none, args)
  | node .. => a.inheritance position args

variable {g : Grammar V} {t : Tree} {ts : List Tree} {a : Attributes V} {i n : Nat} {args : Args V}

theorem remains_inheritance (ha : ∀ slot r, a.rule? slot = some r → Args.Moves r) :
    args.Remains (t.inheritance a i args).2 := by
  cases t
  case leaf => exact .refl
  case node =>
    simp only [inheritance, Attributes.inheritance]
    split
    case h_1 r hr => exact ha i r hr args
    case h_2 => exact .refl

-- What a rule computes is found in the arrays afterwards.
theorem enter_eq_inheritance (h : args.Fresh n i) (ha : ∀ slot r, a.rule? slot = some r → Args.Moves r)
    (hi : i < n) : t.enter a i args = (t.inheritance a i args).2.setInherited i (t.inheritance a i args).1 ∧
      (t.enter a i args).inherited? i = (t.inheritance a i args).1 := by
  have hnone : args = args.setInherited i none ∧ args.inherited? i = none :=
    ⟨h.setInherited_none.symm, h.inherited i (Nat.le_refl i)⟩
  cases t
  case leaf => exact hnone
  case node =>
    cases hr : a.rule? i
    case none =>
      simp only [enter, inheritance, Attributes.inheritance, Args.inherit, hr]
      exact hnone
    case some r =>
      simp only [enter, inheritance, Attributes.inheritance, Args.inherit, hr]
      have hl : i < (r args).2.inherited.length := by
        rwa [(ha i r hr args).inherited.length, h.length]
      exact ⟨rfl, Args.inherited?_setInherited.trans ((if_pos rfl).trans (if_pos hl))⟩

variable [OfLexeme V]

mutual

-- The value of a tree for an inherited value, by the rules of its productions. The leaves are the first
-- ones of the tokens.
def attribution (g : Grammar V) : Tree → Option V → List (Token Terminal) → Option V
  | leaf _, _, tokens => tokens.head?.map fun token => OfLexeme.ofLexeme token.lexeme
  | node id _ children, inherited, tokens =>
    (g.production? id).bind fun p =>
      let args := (Args.blank (children.length + 1)).setInherited 0 inherited
      p.attributes.value (attributions g p.attributes children 1 args tokens)

-- The arrays once the positions have been processed from left to right. The first tree has the given
-- position.
def attributions (g : Grammar V) (a : Attributes V) :
    List Tree → Nat → Args V → List (Token Terminal) → Args V
  | [], _, args, _ => args
  | t :: ts, i, args, tokens =>
    let (inherited, args) := t.inheritance a i args
    let args := (args.setInherited i inherited).setSynthesized i (t.attribution g inherited tokens)
    attributions g a ts (i + 1) args (tokens.drop t.yield.length)

end

theorem fillArgs_eq_attributions {tokens : List (Token Terminal)}
    (hv : ∀ t ∈ ts, ∀ inherited tokens, t.value g inherited tokens = t.attribution g inherited tokens)
    (ha : ∀ slot r, a.rule? slot = some r → Args.Moves r) (h : args.Fresh n i) (hn : i + ts.length ≤ n) :
    fillArgs g a ts i args tokens = attributions g a ts i args tokens := by
  induction ts generalizing i args tokens
  case nil => rfl
  case cons t ts hi =>
    rw [List.length_cons] at hn
    have ⟨henter, hinherited⟩ := enter_eq_inheritance (t := t) h ha (by omega)
    rw [fillArgs, attributions, hinherited, hv t (.head ts), henter]
    exact hi (fun t ht => hv t (.tail _ ht)) ((h.remains (remains_inheritance ha)).next) (by omega)

theorem WellFormed.value_eq_attribution (hg : g.Moving) (h : t.WellFormed g) (inherited : Option V)
    (tokens : List (Token Terminal)) :
    t.value g inherited tokens = t.attribution g inherited tokens := by
  induction h generalizing inherited tokens
  case leaf => rfl
  case node p ts hp _ _ hi =>
    have ha := hg p (Grammar.production?_mem hp)
    rw [value, attribution, hp, Option.bind_some, Option.bind_some]
    exact congrArg p.attributes.value (fillArgs_eq_attributions hi ha .initial (by omega))

end Tree

namespace Example.Template

-- Whatever is written as a template.
mutual

theorem moves_rule : ∀ t : Template, Args.Moves t.rule
  | .leaf _ => .pure
  | .node _ children => .bind (moves_rules children) fun _ => .pure
  | .inherited _ => .bind .get fun _ => .pure
  | .synthesized _ => .bind .get fun _ => .pure
  | .takeInherited _ => .bind .takeInherited fun _ => .pure
  | .takeSynthesized _ => .bind .takeSynthesized fun _ => .pure
  | .length => .bind .get fun _ => .pure
  | .isEmpty => .bind .get fun _ => .pure

theorem moves_rules : ∀ ts : List Template, Args.Moves (rules ts)
  | [] => .pure
  | t :: ts => .bind (moves_rule t) fun _ => .bind (moves_rules ts) fun _ => .pure

end

end Example.Template
end CanonicalLR
