import CanonicalLR.Automaton.Basic
import CanonicalLR.Proofs.Augmentation

namespace CanonicalLR

variable {V : Type}

-- The marker can be at the end of the body.
def Production.Short (p : Production V) : Prop := p.body.length < UInt16.size

def Grammar.Short (g : Grammar V) : Prop := ∀ p ∈ g.productions, p.Short

instance (p : Production V) : Decidable p.Short := inferInstanceAs <| Decidable (_ < _)

instance (g : Grammar V) : Decidable g.Short := inferInstanceAs <| Decidable (∀ p ∈ g.productions, p.Short)

theorem Grammar.Short.production? {g : Grammar V} {id : ProductionId} {p : Production V} (h : g.Short)
    (hp : g.production? id = some p) : p.Short :=
  h p (production?_mem hp)

namespace Center

variable {g : Grammar V} {c : Center} {p : Production V} {x : Symbol} {n : Nat}

theorem next?_eq (h : g.production? c.production = some p) : c.next? g = p.body[c.position.toNat]? := by
  simp [next?, h]

-- The marker is at the end of the body.
theorem next?_eq_none (hp : g.production? c.production = some p) (hl : c.position.toNat = p.body.length) :
    c.next? g = none := by
  rw [next?_eq hp, List.getElem?_eq_none (Nat.le_of_eq hl.symm)]

theorem lt_of_next? (hp : g.production? c.production = some p) (hx : c.next? g = some x) :
    c.position.toNat < p.body.length := by
  rw [next?_eq hp] at hx
  have ⟨hl, _⟩ := List.getElem?_eq_some_iff.mp hx
  exact hl

theorem toNat_advance : c.advance.position.toNat = (c.position.toNat + 1) % UInt16.size :=
  UInt16.toNat_add ..

theorem position_advance (h : c.position.toNat + 1 < UInt16.size) :
    c.advance.position.toNat = c.position.toNat + 1 := by
  rw [toNat_advance, Nat.mod_eq_of_lt h]

theorem position_advance_cases :
    c.advance.position.toNat = c.position.toNat + 1 ∨
      c.advance.position = 0 ∧ c.position.toNat + 1 = UInt16.size := by
  have hlt := c.position.toNat_lt
  by_cases h : c.position.toNat + 1 < UInt16.size
  case pos => exact .inl (position_advance h)
  case neg =>
    have hl : c.position.toNat + 1 = UInt16.size := by
      simp only [UInt16.size] at h ⊢
      omega
    exact .inr ⟨UInt16.toNat_inj.mp (by rw [toNat_advance, hl]; rfl), hl⟩

-- In a short body there is a number for the place behind every symbol.
theorem position_advance_of_short (hs : p.Short) (hp : g.production? c.production = some p)
    (hx : c.next? g = some x) : c.advance.position.toNat = c.position.toNat + 1 :=
  position_advance (Nat.lt_of_le_of_lt (lt_of_next? hp hx) hs)

-- The marker passes some symbols.
def skip (c : Center) (n : Nat) : Center := { c with position := c.position + .ofNat n }

@[simp]
theorem skip_zero : c.skip 0 = c := by
  simp [skip]

theorem skip_advance : c.advance.skip n = c.skip (n + 1) := by
  simp [skip, advance, UInt16.add_assoc, UInt16.add_comm 1]

theorem position_skip (h : c.position.toNat + n < UInt16.size) :
    (c.skip n).position.toNat = c.position.toNat + n := by
  simp only [UInt16.size] at h
  simp [skip, Nat.mod_eq_of_lt h]

theorem next?_skip_eq_none (hs : p.Short) (hp : g.production? c.production = some p)
    (hl : c.position.toNat + n = p.body.length) : (c.skip n).next? g = none :=
  next?_eq_none (c := c.skip n) hp (by rw [position_skip (hl ▸ hs), hl])

theorem drop_advance {α body : List Symbol} (hl : body.length < UInt16.size)
    (h : body.drop c.position.toNat = x :: α) : body.drop c.advance.position.toNat = α := by
  have hlt : c.position.toNat < body.length := by
    have := congrArg List.length h
    rw [List.length_drop, List.length_cons] at this
    omega
  rw [position_advance (Nat.lt_of_le_of_lt hlt hl), ← List.tail_drop, h, List.tail_cons]

theorem exists_drop_eq (h : c.next? g = some x) :
    ∃ p, g.production? c.production = some p ∧ p.body.drop c.position.toNat = x :: c.rest g := by
  have ⟨p, hp, hx⟩ := Option.bind_eq_some_iff.mp h
  obtain ⟨hl, rfl⟩ := List.getElem?_eq_some_iff.mp hx
  exact ⟨p, hp, by simp [rest, hp]⟩

theorem next?_of_drop_eq {α : List Symbol} (hp : g.production? c.production = some p)
    (hb : p.body.drop c.position.toNat = x :: α) : c.next? g = some x ∧ c.rest g = α := by
  constructor
  · rw [next?_eq hp, ← List.head?_drop, hb, List.head?_cons]
  · rw [rest, hp]
    exact (List.tail_drop ..).symm.trans (congrArg List.tail hb)

theorem usable_next (hg : g.Augmented) (h : c.next? g = some x) :
    g.Declares x ∧ x ≠ .nonterminal .start := by
  have ⟨p, hp, hx⟩ := Option.bind_eq_some_iff.mp h
  exact hg.bodies p (Grammar.production?_mem hp) x (List.mem_of_getElem? hx)

theorem declares_rest (hg : g.Augmented) (hx : x ∈ c.rest g) : g.Declares x := by
  simp only [rest] at hx
  split at hx
  case h_1 p hp => exact (hg.bodies p (Grammar.production?_mem hp) x (List.mem_of_mem_drop hx)).left
  case h_2 => contradiction

-- No body speaks of `$start`, so its production is not predicted.
theorem predicted_ne_accept (hg : g.Augmented) (hp : p ∈ g.productions)
    (h : c.next? g = some (.nonterminal p.head)) : p.id ≠ .accept := by
  intro hi
  have ⟨r, hr, hh, _⟩ := hg.accept
  have := hg.lookup p hp
  rw [hi, hr] at this
  cases this
  exact (usable_next hg h).right (congrArg Symbol.nonterminal hh)

end Center

namespace ItemSet

instance : Membership Center ItemSet where
  mem s c := ∃ i ∈ s.items, i.center = c

-- The terminal is a lookahead of the center.
def Holds (s : ItemSet) (c : Center) (t : Terminal) : Prop :=
  ∃ i ∈ s.items, i.center = c ∧ t ∈ i.lookaheads

variable {s : ItemSet} {c : Center} {t : Terminal}

theorem mem_def : c ∈ s ↔ ∃ i ∈ s.items, i.center = c := Iff.rfl

theorem Holds.mem (h : s.Holds c t) : c ∈ s := by
  have ⟨i, hi, hc, _⟩ := h
  exact ⟨i, hi, hc⟩

end ItemSet

namespace Item

variable {i : Item} {js : List Item} {c : Center} {t : Terminal}

theorem exists_mem_merge : (∃ k ∈ i.merge js, k.center = c) ↔ i.center = c ∨ ∃ j ∈ js, j.center = c := by
  induction js
  case nil => simp [merge]
  case cons j js hi =>
    simp only [merge]
    split
    case isTrue h => simp [h]
    case isFalse =>
      split
      case isTrue => simp
      case isFalse => simp only [List.mem_cons, exists_eq_or_imp, hi, or_left_comm]

theorem exists_holds_merge :
    (∃ k ∈ i.merge js, k.center = c ∧ t ∈ k.lookaheads) ↔
      i.center = c ∧ t ∈ i.lookaheads ∨ ∃ j ∈ js, j.center = c ∧ t ∈ j.lookaheads := by
  induction js
  case nil => simp [merge]
  case cons j js hi =>
    simp only [merge]
    split
    case isTrue h => simp [h, and_or_left, or_left_comm, or_assoc]
    case isFalse =>
      split
      case isTrue => simp
      case isFalse => simp only [List.mem_cons, exists_eq_or_imp, hi, or_left_comm]

end Item

namespace ItemSet

variable {s : ItemSet} {i j : Item} {is : List Item} {c : Center} {t : Terminal} {x : Symbol}
variable {g : Grammar V}

theorem mem_foldl_insert : c ∈ is.foldl insert s ↔ c ∈ s ∨ ∃ i ∈ is, i.center = c := by
  induction is generalizing s
  case nil => simp
  case cons i is hi =>
    have : c ∈ s.insert i ↔ i.center = c ∨ c ∈ s := Item.exists_mem_merge
    simp [hi, this, or_left_comm, or_assoc]

theorem holds_foldl_insert :
    (is.foldl insert s).Holds c t ↔ s.Holds c t ∨ ∃ i ∈ is, i.center = c ∧ t ∈ i.lookaheads := by
  induction is generalizing s
  case nil => simp
  case cons i is hi =>
    have : (s.insert i).Holds c t ↔ i.center = c ∧ t ∈ i.lookaheads ∨ s.Holds c t :=
      Item.exists_holds_merge
    simp [hi, this, or_left_comm, or_assoc]

theorem mem_ofList : c ∈ ofList is ↔ ∃ i ∈ is, i.center = c := by
  have : c ∉ (∅ : ItemSet) := by
    intro ⟨_, h, _⟩
    contradiction
  simp [ofList, mem_foldl_insert, this]

theorem holds_ofList : (ofList is).Holds c t ↔ ∃ i ∈ is, i.center = c ∧ t ∈ i.lookaheads := by
  have : ¬ (∅ : ItemSet).Holds c t := by
    intro ⟨_, h, _⟩
    contradiction
  simp [ofList, holds_foldl_insert, this]

theorem mem_rootKernel : c ∈ Automaton.rootKernel ↔ c = ⟨.accept, 0⟩ := by
  simp [Automaton.rootKernel, mem_ofList, eq_comm]

theorem holds_rootKernel : Automaton.rootKernel.Holds c t ↔ c = ⟨.accept, 0⟩ ∧ t = .eof := by
  simp [Automaton.rootKernel, holds_ofList, eq_comm]

theorem mem_advance : c ∈ s.advance g x ↔ ∃ b ∈ s, b.next? g = some x ∧ b.advance = c := by
  rw [advance, mem_ofList]
  simp only [List.mem_map, List.mem_filter, decide_eq_true_eq]
  constructor
  case mp =>
    rintro ⟨_, ⟨i, ⟨hi, hx⟩, rfl⟩, rfl⟩
    exact ⟨i.center, ⟨i, hi, rfl⟩, hx, rfl⟩
  case mpr =>
    rintro ⟨_, ⟨i, hi, rfl⟩, hx, rfl⟩
    exact ⟨i.advance, ⟨i, ⟨hi, hx⟩, rfl⟩, rfl⟩

theorem holds_advance :
    (s.advance g x).Holds c t ↔ ∃ b, s.Holds b t ∧ b.next? g = some x ∧ b.advance = c := by
  rw [advance, holds_ofList]
  simp only [List.mem_map, List.mem_filter, decide_eq_true_eq]
  constructor
  case mp =>
    rintro ⟨_, ⟨i, ⟨hi, hx⟩, rfl⟩, rfl, ht⟩
    exact ⟨i.center, ⟨i, hi, rfl, ht⟩, hx, rfl⟩
  case mpr =>
    rintro ⟨_, ⟨i, hi, rfl, ht⟩, hx, rfl⟩
    exact ⟨i.advance, ⟨i, ⟨hi, hx⟩, rfl⟩, rfl, ht⟩

-- An item set has at most one item for each center.
theorem eq_of_center_eq (hi : i ∈ s.items) (hj : j ∈ s.items) (h : i.center = j.center) : i = j := by
  have ⟨items, sorted⟩ := s
  change i ∈ items at hi
  change j ∈ items at hj
  induction sorted
  case nil => contradiction
  case cons k ks hk _ ih =>
    cases hi <;> cases hj
    case head.head => rfl
    case head.tail hj => exact absurd (h ▸ hk j hj) Center.Before.irrefl
    case tail.head hi => exact absurd (h ▸ hk i hi) Center.Before.irrefl
    case tail.tail hi hj => exact ih hi hj

theorem holds_center (hi : i ∈ s.items) : s.Holds i.center t ↔ t ∈ i.lookaheads := by
  constructor
  case mp =>
    intro ⟨j, hj, hc, ht⟩
    exact eq_of_center_eq hj hi hc ▸ ht
  case mpr => exact fun ht => ⟨i, hi, rfl, ht⟩

theorem mem_outgoing_iff : x ∈ s.outgoing g ↔ g.Declares x ∧ ∃ c ∈ s, c.next? g = some x := by
  rw [mem_outgoing]
  refine and_congr_right fun _ => ⟨?mp, ?mpr⟩
  case mp =>
    intro ⟨i, hi, hx⟩
    exact ⟨i.center, ⟨i, hi, rfl⟩, hx⟩
  case mpr =>
    intro ⟨_, ⟨i, hi, rfl⟩, hx⟩
    exact ⟨i, hi, hx⟩

end ItemSet
end CanonicalLR
