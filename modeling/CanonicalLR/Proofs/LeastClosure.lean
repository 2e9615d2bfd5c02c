import CanonicalLR.Proofs.Worklist
import CanonicalLR.Proofs.Completeness
import Mathlib.Data.List.Sort

namespace CanonicalLR

variable {V : Type} {g : Grammar V} {f : FirstSets}

namespace Item

variable {i j k : Item} {is js given given' : List Item}

-- The item has the center of the other one, and its lookaheads. A center may be found with many sets of lookaheads,
-- one for each way to predict it, and the closure holds it with all of them together.
structure Covers (i j : Item) : Prop where
  center : i.center = j.center
  lookaheads : ∀ t ∈ j.lookaheads, t ∈ i.lookaheads

namespace Covers

theorem trans (h₁ : i.Covers j) (h₂ : j.Covers k) : i.Covers k where
  center := h₁.center.trans h₂.center
  lookaheads t := h₁.lookaheads t ∘ h₂.lookaheads t

theorem next?_eq (h : i.Covers j) : i.next? g = j.next? g := by
  rw [next?, next?, h.center]

theorem localFirst (h : i.Covers j) {t : Terminal}
    (ht : t ∈ (f.localFirst (j.center.rest g) j.lookaheads).terminals) :
    t ∈ (f.localFirst (i.center.rest g) i.lookaheads).terminals := by
  rw [FirstSets.mem_localFirst] at ht ⊢
  rw [h.center]
  exact ht.imp_right fun ⟨he, ht⟩ => ⟨he, h.lookaheads t ht⟩

-- An item with more lookaheads can be expanded all the more.
theorem expand (h : i.Covers j) (hj : ∃ js, j.expand g f = .ok js) :
    ∃ is, i.expand g f = .ok is := by
  rw [expand_eq_ok] at hj ⊢
  intro n hn
  have hj := hj n (h.next?_eq ▸ hn)
  rw [FirstSets.localFirst_epsilon] at hj ⊢
  rw [h.center]
  exact fun ⟨he, hi⟩ => hj ⟨he, fun t ht => hi t (h.lookaheads t ht)⟩

-- It predicts the same productions, with more lookaheads.

theorem exists_above (h : i.Covers j) (hi : i.expand g f = .ok is) (hj : j.expand g f = .ok js)
    (hk : k ∈ js) : ∃ l ∈ is, l.Covers k := by
  obtain ⟨n, hn, p, hp, rfl⟩ := (mem_expand hj).mp hk
  exact ⟨_, (mem_expand hi).mpr ⟨n, h.next?_eq ▸ hn, p, hp, rfl⟩, rfl, fun _ => h.localFirst⟩

theorem exists_below (h : i.Covers j) (hi : i.expand g f = .ok is) (hj : j.expand g f = .ok js)
    (hk : k ∈ is) : ∃ l ∈ js, k.Covers l := by
  obtain ⟨n, hn, p, hp, rfl⟩ := (mem_expand hi).mp hk
  exact ⟨_, (mem_expand hj).mpr ⟨n, h.next?_eq ▸ hn, p, hp, rfl⟩, rfl, fun _ => h.localFirst⟩

end Covers

-- Items that cover what can be expanded lead to items that cover what is found from it.
theorem Found.exists_below (hi : i.Found g f given')
    (hg : ∀ i ∈ given', ∃ j : Item, j.Found g f given ∧ i.Covers j)
    (he : ∀ j : Item, j.Found g f given → ∃ js, j.expand g f = .ok js) :
    ∃ j : Item, j.Found g f given ∧ i.Covers j := by
  induction hi
  case given hi => exact hg _ hi
  case predicted his hj ih =>
    have ⟨j, hf, hc⟩ := ih
    have ⟨js, hjs⟩ := he j hf
    have ⟨l, hl, hkl⟩ := hc.exists_below his hjs hj
    exact ⟨l, .predicted hf hjs hl, hkl⟩

end Item

namespace ItemSet

variable {s s' s'' : ItemSet} {i : Item} {c : Center} {t : Terminal}

-- Center by center, and lookahead by lookahead.
structure Included (s s' : ItemSet) : Prop where
  centers : ∀ c ∈ s, c ∈ s'
  lookaheads : ∀ c t, s.Holds c t → s'.Holds c t

namespace Included

theorem refl : s.Included s where
  centers _ := id
  lookaheads _ _ := id

theorem trans (h₁ : s.Included s') (h₂ : s'.Included s'') : s.Included s'' where
  centers c := h₂.centers c ∘ h₁.centers c
  lookaheads c t := h₂.lookaheads c t ∘ h₁.lookaheads c t

theorem exists_item (h : s.Included s') (hi : i ∈ s.items) : ∃ j ∈ s'.items, j.Covers i := by
  have ⟨j, hj, hc⟩ := h.centers i.center ⟨i, hi, rfl⟩
  refine ⟨j, hj, hc, fun t ht => ?_⟩
  rw [← holds_center hj, hc]
  exact h.lookaheads _ _ ⟨i, hi, rfl, ht⟩

theorem mem_items (h₁ : s.Included s') (h₂ : s'.Included s) (hi : i ∈ s.items) : i ∈ s'.items := by
  have ⟨⟨c, l⟩, hj, hc, hl⟩ := h₁.exists_item hi
  cases hc
  have hil : i.lookaheads = l := TerminalSet.ext_mem fun t =>
    ⟨hl t, fun ht => (holds_center hi).mp (h₂.lookaheads _ _ ⟨_, hj, rfl, ht⟩)⟩
  cases hil
  exact hj

-- The order of the items does not leave a choice.
theorem antisymm (h₁ : s.Included s') (h₂ : s'.Included s) : s = s' := by
  have hp : s.items.Perm s'.items := (List.perm_ext_iff_of_nodup nodup_items nodup_items).mpr
    fun i => ⟨h₁.mem_items h₂, h₂.mem_items h₁⟩
  have hl : s.items = s'.items := hp.eq_of_pairwise
    (fun _ _ _ _ hij hji => absurd (hij.trans hji) Center.Before.irrefl) s.sorted s'.sorted
  cases s
  cases s'
  cases hl
  rfl

end Included

-- Whatever an item predicts is there already.
structure Closed (g : Grammar V) (f : FirstSets) (s : ItemSet) : Prop where
  expand : ∀ i ∈ s.items, ∃ is, i.expand g f = .ok is ∧ ∀ j ∈ is, ∃ k ∈ s.items, k.Covers j

theorem Closed.exists_above {given : List Item} (hc : s.Closed g f)
    (hg : ∀ i ∈ given, ∃ k ∈ s.items, k.Covers i) (hi : i.Found g f given) :
    ∃ k ∈ s.items, k.Covers i := by
  induction hi
  case given hi => exact hg _ hi
  case predicted he hj ih =>
    have ⟨k, hk, hki⟩ := ih
    have ⟨ks, hks, hclosed⟩ := hc.expand k hk
    have ⟨l, hl, hlj⟩ := hki.exists_above hks he hj
    have ⟨m, hm, hml⟩ := hclosed l hl
    exact ⟨m, hm, hml.trans hlj⟩

namespace Closure

theorem included (h : Closure g f s s') : s.Included s' where
  centers _ := h.given
  lookaheads _ _ := h.given_holds

theorem exists_below (h : Closure g f s s') (hi : i ∈ s'.items) :
    ∃ j : Item, j.Found g f s.items ∧ i.Covers j := by
  have ⟨j, hj, hc⟩ := (h.mem i.center).mp ⟨i, hi, rfl⟩
  exact ⟨j, hj, hc.symm, fun t ht => (holds_center hi).mp ((h.holds ..).mpr ⟨j, hj, hc, ht⟩)⟩

theorem closed (h : Closure g f s s') : s'.Closed g f where
  expand i hi := by
    have ⟨j, hj, hij⟩ := h.exists_below hi
    have ⟨is, he⟩ := hij.expand (h.expand j hj)
    refine ⟨is, he, fun j hj => ?_⟩
    obtain ⟨n, hn, p, hp, rfl⟩ := (Item.mem_expand he).mp hj
    have hc : i.center ∈ s' := ⟨i, hi, rfl⟩
    have ⟨k, hk, hkc⟩ := h.predicted hc hn hp
    refine ⟨k, hk, hkc, fun t ht => (holds_center hk).mp ?_⟩
    rw [hkc]
    cases FirstSets.mem_localFirst.mp ht
    case inl ht => exact h.predicted_first hc hn hp ht
    case inr ht => exact h.predicted_holds ⟨i, hi, rfl, ht.right⟩ hn hp (.inr ⟨ht.left, rfl⟩)

theorem least (h : Closure g f s s') (hs : s.Included s'') (hc : s''.Closed g f) :
    s'.Included s'' := by
  have found {i : Item} (hi : i.Found g f s.items) := hc.exists_above (fun _ => hs.exists_item) hi
  constructor
  case centers =>
    intro c hm
    obtain ⟨i, hi, rfl⟩ := (h.mem c).mp hm
    have ⟨k, hk, hki⟩ := found hi
    exact ⟨k, hk, hki.center⟩
  case lookaheads =>
    intro c t hm
    obtain ⟨i, hi, rfl, ht⟩ := (h.holds c t).mp hm
    have ⟨k, hk, hki⟩ := found hi
    exact ⟨k, hk, hki.center, hki.lookaheads t ht⟩

-- The second closure does not fail where the first one has not: each of its items has the lookaheads
-- of an item that has been expanded before. For a closed set that is no closure this would not do, since
-- an item with fewer lookaheads than the set holds may be found, and none may be left.
theorem closure_eq (hf : f.Bounded g.terminals.length g.nonterminals.length) (h : Closure g f s s') :
    s'.closure g f = .ok s' := by
  have exists_expand (i : Item) (hi : i.Found g f s'.items) : ∃ is, i.expand g f = .ok is := by
    have ⟨j, hj, hij⟩ := hi.exists_below (fun _ => h.exists_below) h.expand
    exact hij.expand (h.expand j hj)
  have ⟨s'', h'⟩ := exists_closure hf exists_expand
  have hs := closure_spec h'
  rw [h', hs.included.antisymm (hs.least .refl h.closed)]

end Closure

-- The closure is an operator of closure.
theorem closure_least {s s' : ItemSet} (h : s.closure g g.firstSets = .ok s') :
    (s.Included s' ∧ s'.Closed g g.firstSets ∧
      ∀ s'' : ItemSet, s.Included s'' → s''.Closed g g.firstSets → s'.Included s'') ∧
    s'.closure g g.firstSets = .ok s' ∧
    ∀ r r' : ItemSet, s.Included r → r.closure g g.firstSets = .ok r' → s'.Included r' := by
  have hs := closure_spec h
  refine ⟨⟨hs.included, hs.closed, fun _ => hs.least⟩,
    hs.closure_eq Grammar.bounded_firstSets, fun r r' hr hr' => ?_⟩
  have hr' := closure_spec hr'
  exact hs.least (hr.trans hr'.included) hr'.closed

end ItemSet

namespace Example.Brackets

-- After an opening bracket, with what may come after the brackets.
def opened (after : List Terminal) : ItemSet := .ofList [⟨⟨⟨1⟩, 1⟩, .ofList after⟩]

-- What is enclosed comes before the closing bracket in any case.
def enclosing (after : List Terminal) : ItemSet := .ofList [
  ⟨⟨⟨1⟩, 0⟩, .singleton rparen⟩, ⟨⟨⟨1⟩, 1⟩, .ofList after⟩, ⟨⟨⟨2⟩, 0⟩, .singleton rparen⟩]

theorem included_opened {l l' : List Terminal} (h : l ⊆ l') : (opened l).Included (opened l') where
  centers c := by simp [opened, ItemSet.mem_ofList]
  lookaheads c t := by
    simp only [opened, ItemSet.holds_ofList, List.mem_singleton, exists_eq_left, TerminalSet.mem_ofList]
    exact And.imp_right fun ht => h ht

theorem closure_opened : (opened [.eof]).closure grammar grammar.firstSets = .ok (enclosing [.eof]) ∧
    (opened [.eof, rparen]).closure grammar grammar.firstSets = .ok (enclosing [.eof, rparen]) :=
  ⟨by rfl, by rfl⟩

end Example.Brackets

open Example.Brackets in
theorem ItemSet.closure_least_brackets :
    (enclosing [.eof]).closure grammar grammar.firstSets = .ok (enclosing [.eof]) ∧
    (enclosing [.eof]).Closed grammar grammar.firstSets ∧
    (∀ s : ItemSet, (opened [.eof]).Included s → s.Closed grammar grammar.firstSets →
      (enclosing [.eof]).Included s) ∧
    (enclosing [.eof]).Included (enclosing [.eof, rparen]) :=
  have ⟨⟨_, hclosed, hleast⟩, hagain, hmono⟩ := closure_least closure_opened.left
  ⟨hagain, hclosed, hleast, hmono _ _ (included_opened (by simp)) closure_opened.right⟩

end CanonicalLR
