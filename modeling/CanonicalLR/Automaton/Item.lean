import CanonicalLR.TerminalSet
import CanonicalLR.Grammar.Basic

namespace CanonicalLR

variable {V : Type}

-- The marker stands behind so many symbols of the body.
structure Center where
  production : ProductionId
  position : UInt16
  deriving DecidableEq

namespace Center

-- Centers are ordered by production, and by position within a production.
def Before (c₁ c₂ : Center) : Prop :=
  c₁.production.index < c₂.production.index ∨
  c₁.production.index = c₂.production.index ∧ c₁.position.toNat < c₂.position.toNat

instance (c₁ c₂ : Center) : Decidable (c₁.Before c₂) :=
  inferInstanceAs <| Decidable (_ ∨ _)

theorem Before.trans {c₁ c₂ c₃ : Center} (h₁ : c₁.Before c₂) (h₂ : c₂.Before c₃) : c₁.Before c₃ := by
  unfold Before at *
  omega

theorem Before.irrefl {c : Center} : ¬ c.Before c := by
  unfold Before
  omega

theorem Before.total {c₁ c₂ : Center} (hn : c₁ ≠ c₂) (h : ¬ c₁.Before c₂) : c₂.Before c₁ := by
  obtain ⟨⟨p₁⟩, i₁⟩ := c₁
  obtain ⟨⟨p₂⟩, i₂⟩ := c₂
  simp only [ne_eq, mk.injEq, ProductionId.mk.injEq, Before, ← UInt16.toNat_inj] at *
  omega

-- The symbol just after the marker. There is none once the whole body has been passed.
def next? (g : Grammar V) (c : Center) : Option Symbol :=
  (g.production? c.production).bind (·.body[c.position.toNat]?)

def isReduction (g : Grammar V) (c : Center) : Bool := (c.next? g).isNone

-- What follows the symbol after the marker.
def rest (g : Grammar V) (c : Center) : List Symbol :=
  match g.production? c.production with
  | some p => p.body.drop (c.position.toNat + 1)
  | none => []

-- There is no number for the place behind 65535 symbols: the marker goes back to the front of the body.
def advance (c : Center) : Center := { c with position := c.position + 1 }

-- The marker is written as a dot, and left out if it lies beyond the end of the body.
def text (g : Grammar V) (c : Center) : String :=
  match g.production? c.production with
  | none => Tagged.tag c.production
  | some p =>
    let body := p.body.map g.symbolName
    let place := c.position.toNat
    let marked := if place ≤ body.length then body.take place ++ "." :: body.drop place else body
    " ".intercalate (g.nonterminalName p.head :: ":=" :: marked)

end Center

structure Item where
  center : Center
  lookaheads : TerminalSet
  deriving DecidableEq

namespace Item

def next? (g : Grammar V) (i : Item) : Option Symbol := i.center.next? g

def advance (i : Item) : Item := { i with center := i.center.advance }

def text (g : Grammar V) (i : Item) : String :=
  i.center.text g ++ "  [" ++ " ".intercalate (i.lookaheads.toList.map g.terminalName) ++ "]"

-- Add an item to a list that is ordered by centers, uniting it with the item of the same center.
def merge (i : Item) : List Item → List Item
  | [] => [i]
  | j :: js =>
    if i.center = j.center then
      ⟨j.center, j.lookaheads ∪ i.lookaheads⟩ :: js
    else if i.center.Before j.center then
      i :: j :: js
    else
      j :: i.merge js

theorem mem_merge_center {i k : Item} {js : List Item} (h : k ∈ i.merge js) :
    k.center = i.center ∨ ∃ j ∈ js, k.center = j.center := by
  induction js
  case nil => exact .inl (by simp_all [merge])
  case cons j js hi =>
    simp only [merge] at h
    split at h
    case isTrue =>
      cases h
      case head => exact .inr ⟨j, by simp⟩
      case tail h => exact .inr ⟨k, .tail _ h, rfl⟩
    case isFalse =>
      split at h
      case isTrue =>
        cases h
        case head => exact .inl rfl
        case tail h => exact .inr ⟨k, h, rfl⟩
      case isFalse =>
        cases h
        case head => exact .inr ⟨k, by simp⟩
        case tail h =>
          cases hi h
          case inl h => exact .inl h
          case inr h =>
            obtain ⟨j, hj, he⟩ := h
            exact .inr ⟨j, by simp [hj], he⟩

theorem merge_sorted {i : Item} {js : List Item} (h : js.Pairwise (·.center.Before ·.center)) :
    (i.merge js).Pairwise (·.center.Before ·.center) := by
  induction h
  case nil => simp [merge]
  case cons j js hj hs hi =>
    simp only [merge]
    split
    case isTrue => exact .cons hj hs
    case isFalse hn =>
      split
      case isTrue hb =>
        refine .cons ?_ (.cons hj hs)
        intro k hk
        cases hk
        case head => exact hb
        case tail hk => exact hb.trans (hj _ hk)
      case isFalse hb =>
        refine .cons ?_ hi
        intro k hk
        cases mem_merge_center hk
        case inl he => exact he ▸ Center.Before.total hn hb
        case inr he =>
          obtain ⟨k', hk', he⟩ := he
          exact he ▸ hj k' hk'

end Item

-- A center is there once at most, and the order of the centers makes equal sets equal values.
structure ItemSet where
  items : List Item
  sorted : items.Pairwise (·.center.Before ·.center)
  deriving DecidableEq

namespace ItemSet

def empty : ItemSet := ⟨[], .nil⟩

instance : EmptyCollection ItemSet := ⟨empty⟩

def insert (s : ItemSet) (i : Item) : ItemSet := ⟨i.merge s.items, Item.merge_sorted s.sorted⟩

-- Unite the lookaheads of all items that share a center.
def ofList (is : List Item) : ItemSet := is.foldl insert ∅

def size (s : ItemSet) : Nat := s.items.length

def isEmpty (s : ItemSet) : Bool := s.items.isEmpty

-- The marker passes `symbol` in every item that has it next.
def advance (g : Grammar V) (s : ItemSet) (symbol : Symbol) : ItemSet :=
  ofList <| (s.items.filter fun i => i.next? g = some symbol).map Item.advance

end ItemSet
end CanonicalLR
