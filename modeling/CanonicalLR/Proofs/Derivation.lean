import CanonicalLR.Derivation.Tree
import CanonicalLR.Proofs.Augmentation
import Mathlib.Logic.Relation

namespace CanonicalLR

variable {V : Type}

namespace Symbol

-- A string of terminals as a string of symbols.
abbrev word (w : List Terminal) : List Symbol := w.map .terminal

end Symbol

open CanonicalLR.Symbol (word)

namespace Grammar

inductive Produces (g : Grammar V) : List Symbol → List Symbol → Prop
  | rewrite {p : Production V} (left right : List Symbol) (mem : p ∈ g.productions) :
    Produces g (left ++ .nonterminal p.head :: right) (left ++ p.body ++ right)

def Derives (g : Grammar V) : List Symbol → List Symbol → Prop :=
  Relation.ReflTransGen g.Produces

-- The productions are listed in the order of their application.
inductive Rightmost (g : Grammar V) (α : List Symbol) : List ProductionId → List Symbol → Prop
  | refl : Rightmost g α [] α
  | rewrite {ids : List ProductionId} {p : Production V} (left : List Symbol) (w : List Terminal)
    (rec : Rightmost g α ids (left ++ .nonterminal p.head :: word w)) (mem : p ∈ g.productions) :
    Rightmost g α (ids ++ [p.id]) (left ++ p.body ++ word w)

-- A string of terminals that the start symbol derives.
def Sentence (g : Grammar V) (w : List Terminal) : Prop :=
  g.Derives [.nonterminal g.startSymbol] (word w)

variable {g : Grammar V} {α β γ δ : List Symbol}

namespace Produces

theorem append_left (h : g.Produces α β) : g.Produces (γ ++ α) (γ ++ β) := by
  cases h
  case rewrite p l r hp => simpa using Produces.rewrite (γ ++ l) r hp

theorem append_right (h : g.Produces α β) : g.Produces (α ++ γ) (β ++ γ) := by
  cases h
  case rewrite p l r hp => simpa using Produces.rewrite l (r ++ γ) hp

-- A rewritten symbol lies in one of two parts of a string.
theorem append_cases (h : g.Produces (α ++ β) γ) :
    (∃ α', γ = α' ++ β ∧ g.Produces α α') ∨ (∃ β', γ = α ++ β' ∧ g.Produces β β') := by
  generalize he : α ++ β = δ at h
  cases h
  case rewrite p l r hp =>
    cases List.append_eq_append_iff.mp he
    case inl h =>
      obtain ⟨m, rfl, rfl⟩ := h
      exact .inr ⟨m ++ p.body ++ r, by simp, .rewrite m r hp⟩
    case inr h =>
      obtain ⟨m, rfl, h⟩ := h
      cases m
      case nil =>
        simp only [List.nil_append] at h
        exact .inr ⟨p.body ++ r, by simp, h ▸ .rewrite [] r hp⟩
      case cons s m =>
        cases h
        exact .inl ⟨l ++ p.body ++ m, by simp, .rewrite l m hp⟩

end Produces

namespace Derives

theorem refl : g.Derives α α := Relation.ReflTransGen.refl

theorem trans (h₁ : g.Derives α β) (h₂ : g.Derives β γ) : g.Derives α γ :=
  Relation.ReflTransGen.trans h₁ h₂

theorem production {p : Production V} (h : p ∈ g.productions) :
    g.Derives [.nonterminal p.head] p.body :=
  .single <| by simpa using Produces.rewrite [] [] h

theorem append_left (h : g.Derives α β) : g.Derives (γ ++ α) (γ ++ β) :=
  Relation.ReflTransGen.lift (γ ++ ·) (fun _ _ => Produces.append_left) _ _ h

theorem append_right (h : g.Derives α β) : g.Derives (α ++ γ) (β ++ γ) :=
  Relation.ReflTransGen.lift (· ++ γ) (fun _ _ => Produces.append_right) _ _ h

theorem append (h₁ : g.Derives α β) (h₂ : g.Derives γ δ) : g.Derives (α ++ γ) (β ++ δ) :=
  h₁.append_right.trans h₂.append_left

-- What holds of a string and of all bodies holds of what the string derives.
theorem forall_mem {P : Symbol → Prop} (h : g.Derives α β)
    (hb : ∀ p ∈ g.productions, ∀ x ∈ p.body, P x) (hα : ∀ x ∈ α, P x) : ∀ x ∈ β, P x := by
  induction h
  case refl => exact hα
  case tail hp hi =>
    have ⟨l, r, hp⟩ := hp
    intro x hx
    simp only [List.mem_append] at hx
    obtain (hx | hx) | hx := hx
    · exact hi x (by simp [hx])
    · exact hb _ hp x hx
    · exact hi x (by simp [hx])

-- The parts of a string derive their shares of the result.
theorem split (h : g.Derives (α ++ β) γ) :
    ∃ α' β', γ = α' ++ β' ∧ g.Derives α α' ∧ g.Derives β β' := by
  induction h
  case refl => exact ⟨α, β, rfl, refl, refl⟩
  case tail hp hi =>
    obtain ⟨α', β', rfl, hα, hβ⟩ := hi
    cases hp.append_cases
    case inl h =>
      obtain ⟨α'', rfl, h⟩ := h
      exact ⟨α'', β', rfl, hα.tail h, hβ⟩
    case inr h =>
      obtain ⟨β'', rfl, h⟩ := h
      exact ⟨α', β'', rfl, hα, hβ.tail h⟩

-- A string of terminals cannot be rewritten.
theorem eq_word {v : List Terminal} (h : g.Derives (word v) β) : β = word v := by
  cases Relation.ReflTransGen.cases_head h
  case inl h => exact h.symm
  case inr h =>
    have ⟨_, hp, _⟩ := h
    generalize he : word v = ω at hp
    have ⟨l, r, _⟩ := hp
    have hm : Symbol.nonterminal _ ∈ word v := he ▸ List.mem_append_right l List.mem_cons_self
    simp at hm

end Derives

namespace Rightmost

variable {ids ids₁ ids₂ : List ProductionId}

theorem trans (h₁ : g.Rightmost α ids₁ β) (h₂ : g.Rightmost β ids₂ γ) :
    g.Rightmost α (ids₁ ++ ids₂) γ := by
  induction h₂
  case refl => simpa using h₁
  case rewrite p l w _ hp hi => simpa using Rightmost.rewrite l w hi hp

theorem production {p : Production V} (h : p ∈ g.productions) :
    g.Rightmost [.nonterminal p.head] [p.id] p.body := by
  simpa using Rightmost.rewrite (α := [.nonterminal p.head]) [] [] .refl h

theorem append_left (h : g.Rightmost α ids β) : g.Rightmost (γ ++ α) ids (γ ++ β) := by
  induction h
  case refl => exact .refl
  case rewrite p l w _ hp hi => simpa using Rightmost.rewrite (γ ++ l) w (by simpa using hi) hp

-- What follows must not hold a nonterminal, since that would have to be rewritten first.
theorem append_word {w : List Terminal} (h : g.Rightmost α ids β) :
    g.Rightmost (α ++ word w) ids (β ++ word w) := by
  induction h
  case refl => exact .refl
  case rewrite p l v _ hp hi => simpa using Rightmost.rewrite l (v ++ w) (by simpa using hi) hp

theorem derives (h : g.Rightmost α ids β) : g.Derives α β := by
  induction h
  case refl => exact .refl
  case rewrite l w _ hp hi => exact hi.tail (.rewrite l _ hp)

end Rightmost
end Grammar

-- Derivation trees for the symbols of a string.
structure Forest (g : Grammar V) (α : List Symbol) (trees : List Tree) : Prop where
  wellFormed : ∀ t ∈ trees, t.WellFormed g
  symbols : trees.map Tree.symbol = α

namespace Forest

open CanonicalLR.Tree Grammar

variable {g : Grammar V} {α β : List Symbol} {ts us : List Tree} {w : List Terminal}

theorem nil : Forest g [] [] where
  wellFormed := by simp
  symbols := rfl

theorem append (h₁ : Forest g α ts) (h₂ : Forest g β us) : Forest g (α ++ β) (ts ++ us) where
  wellFormed t ht := (List.mem_append.mp ht).elim (h₁.wellFormed t) (h₂.wellFormed t)
  symbols := by simp [h₁.symbols, h₂.symbols]

theorem split (h : Forest g (α ++ β) ts) :
    ∃ us vs, ts = us ++ vs ∧ Forest g α us ∧ Forest g β vs := by
  obtain ⟨us, vs, rfl, hu, hv⟩ := List.map_eq_append_iff.mp h.symbols
  exact ⟨us, vs, rfl, ⟨fun t ht => h.wellFormed t (by simp [ht]), hu⟩,
    ⟨fun t ht => h.wellFormed t (by simp [ht]), hv⟩⟩

theorem singleton {t : Tree} (h : t.WellFormed g) : Forest g [t.symbol] [t] where
  wellFormed := by simpa using h
  symbols := rfl

theorem word : Forest g (word w) (w.map Tree.leaf) where
  wellFormed t ht := by
    obtain ⟨a, _, rfl⟩ := List.mem_map.mp ht
    exact .leaf a
  symbols := by simp [Tree.symbol]

theorem node {p : Production V} (hp : g.production? p.id = some p) (h : Forest g p.body ts) :
    Forest g [.nonterminal p.head] [.node p.id p.head ts] :=
  .singleton (.node p ts hp h.symbols.symm h.wellFormed)

end Forest

namespace Tree

open Grammar

variable {g : Grammar V} {ts us : List Tree} {t : Tree} {w : List Terminal}

theorem symbol_leaf {a : Terminal} : (leaf a).symbol = .terminal a := rfl

theorem eq_leaf_of_symbol {a : Terminal} (h : t.symbol = .terminal a) : t = leaf a := by
  cases t <;> cases h
  rfl

@[simp]
theorem yieldAll_map_leaf : yieldAll (w.map leaf) = w := by
  induction w <;> simp_all [yieldAll, yield]

-- The last tree of a forest is derived first.
theorem rightmost_forest
    (h : ∀ t ∈ ts, g.Rightmost [t.symbol] t.postorder.reverse (word t.yield)) :
    g.Rightmost (ts.map symbol) (postorderAll ts).reverse (word (yieldAll ts)) := by
  induction ts
  case nil => exact .refl
  case cons t ts hi =>
    have ht := h t (by simp) |>.append_word (w := yieldAll ts)
    have hts := hi (fun t ht => h t (by simp [ht])) |>.append_left (γ := [t.symbol])
    simpa [postorderAll, yieldAll] using hts.trans ht

theorem WellFormed.rightmost (h : t.WellFormed g) :
    g.Rightmost [t.symbol] t.postorder.reverse (word t.yield) := by
  induction h
  case leaf => exact .refl
  case node p ts hp hb _ hi =>
    have hts := rightmost_forest hi
    rw [← hb] at hts
    simpa [postorder, yield, symbol] using (Rightmost.production <| production?_mem hp).trans hts

theorem WellFormed.exists_production {id : ProductionId} (h : t.WellFormed g)
    (hi : id ∈ t.postorder) : ∃ p, g.production? id = some p := by
  induction h
  case leaf => contradiction
  case node p ts hp _ _ ih =>
    rw [postorder, postorderAll_eq, List.mem_append, List.mem_flatMap, List.mem_singleton] at hi
    obtain ⟨t, ht, hi⟩ | rfl := hi
    · exact ih t ht hi
    · exact ⟨p, hp⟩

end Tree

namespace Forest

open CanonicalLR.Tree Grammar

variable {g : Grammar V} {α β : List Symbol} {ts : List Tree}

theorem rightmost (h : Forest g α ts) :
    g.Rightmost α (postorderAll ts).reverse (Symbol.word (yieldAll ts)) :=
  h.symbols ▸ rightmost_forest fun t ht => (h.wellFormed t ht).rightmost

theorem derives (h : Forest g α ts) : g.Derives α (Symbol.word (yieldAll ts)) :=
  h.rightmost.derives

-- The trees of a body become the children of its head.
theorem of_produces (hg : g.Augmented) (hp : g.Produces α β) (h : Forest g β ts) :
    ∃ us, Forest g α us ∧ yieldAll us = yieldAll ts := by
  cases hp
  case rewrite p l r hp =>
    obtain ⟨_, us, rfl, h, hr⟩ := h.split
    obtain ⟨ls, bs, rfl, hl, hb⟩ := h.split
    refine ⟨ls ++ .node p.id p.head bs :: us, ?_, by simp [yieldAll, yield]⟩
    simpa using hl.append ((node (hg.lookup p hp) hb).append hr)

theorem of_derives (hg : g.Augmented) (hd : g.Derives α β) (h : Forest g β ts) :
    ∃ us, Forest g α us ∧ yieldAll us = yieldAll ts := by
  induction hd using Relation.ReflTransGen.head_induction_on
  case refl => exact ⟨ts, h, rfl⟩
  case head hp _ hi =>
    have ⟨us, hu, hy⟩ := hi
    have ⟨vs, hv, hz⟩ := of_produces hg hp hu
    exact ⟨vs, hv, hz.trans hy⟩

theorem of_derives_word {w : List Terminal} (hg : g.Augmented)
    (hd : g.Derives α (Symbol.word w)) : ∃ us, Forest g α us ∧ yieldAll us = w := by
  simpa using of_derives hg hd word

end Forest

open CanonicalLR.Tree in
theorem Grammar.Augmented.sentence_iff {g : Grammar V} {w : List Terminal} (hg : g.Augmented) :
    g.Sentence w ↔ ∃ t : Tree, t.WellFormed g ∧ t.symbol = .nonterminal g.startSymbol ∧ t.yield = w := by
  constructor
  case mp =>
    intro h
    obtain ⟨us, hu, hw⟩ := Forest.of_derives_word hg h
    obtain ⟨t, rfl, ht⟩ := List.map_eq_singleton_iff.mp hu.symbols
    exact ⟨t, hu.wellFormed t (by simp), ht, by simpa [yieldAll] using hw⟩
  case mpr =>
    rintro ⟨t, ht, hs, hw⟩
    simpa [Sentence, hs, hw] using ht.rightmost.derives

end CanonicalLR
