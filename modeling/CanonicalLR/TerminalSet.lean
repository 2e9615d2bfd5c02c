import CanonicalLR.Symbol

namespace CanonicalLR

-- The terminal with index `i` is a member if bit `i` is set, so sets with the same members are equal.
@[ext]
structure TerminalSet where
  bits : Nat
  deriving DecidableEq

namespace TerminalSet

def empty : TerminalSet := ⟨0⟩

instance : EmptyCollection TerminalSet := ⟨empty⟩

def contains (s : TerminalSet) (t : Terminal) : Bool := s.bits.testBit t.index

instance : Membership Terminal TerminalSet where
  mem s t := s.contains t = true

instance (t : Terminal) (s : TerminalSet) : Decidable (t ∈ s) :=
  inferInstanceAs <| Decidable (s.contains t = true)

theorem mem_def {s : TerminalSet} {t : Terminal} : t ∈ s ↔ s.bits.testBit t.index = true :=
  Iff.rfl

theorem ext_mem {s₁ s₂ : TerminalSet} (h : ∀ t, t ∈ s₁ ↔ t ∈ s₂) : s₁ = s₂ := by
  apply TerminalSet.ext
  apply Nat.eq_of_testBit_eq
  intro i
  have := h ⟨i⟩
  simp only [mem_def] at this
  exact Bool.eq_iff_iff.mpr this

@[simp]
theorem not_mem_empty {t : Terminal} : t ∉ (∅ : TerminalSet) := by
  change ¬ (Nat.testBit 0 t.index = true)
  simp

def insert (s : TerminalSet) (t : Terminal) : TerminalSet := ⟨s.bits ||| 1 <<< t.index⟩

@[simp]
theorem mem_insert {s : TerminalSet} {t u : Terminal} : u ∈ s.insert t ↔ u = t ∨ u ∈ s := by
  cases t; cases u
  simp only [mem_def, insert, Nat.testBit_or, Nat.one_shiftLeft, Nat.testBit_two_pow, Bool.or_eq_true,
    decide_eq_true_eq, Terminal.mk.injEq]
  rw [or_comm, eq_comm]

def singleton (t : Terminal) : TerminalSet := empty.insert t

@[simp]
theorem mem_singleton {t u : Terminal} : u ∈ singleton t ↔ u = t := by
  simp only [singleton, mem_insert, or_iff_left_iff_imp]
  exact fun h => absurd h not_mem_empty

def union (s₁ s₂ : TerminalSet) : TerminalSet := ⟨s₁.bits ||| s₂.bits⟩

instance : Union TerminalSet := ⟨union⟩

@[simp]
theorem mem_union {s₁ s₂ : TerminalSet} {t : Terminal} : t ∈ s₁ ∪ s₂ ↔ t ∈ s₁ ∨ t ∈ s₂ := by
  change (s₁.bits ||| s₂.bits).testBit t.index = true ↔ _
  simp [mem_def, Nat.testBit_or]

theorem bits_le_union {s₁ s₂ : TerminalSet} : s₁.bits ≤ (s₁ ∪ s₂).bits :=
  Nat.left_le_or

-- All members have an index below `n`.
def Within (n : Nat) (s : TerminalSet) : Prop := ∀ t ∈ s, t.index < n

namespace Within

variable {n : Nat}

theorem empty : Within n ∅ := fun _ h => absurd h not_mem_empty

theorem singleton {t : Terminal} (h : t.index < n) : Within n (singleton t) := by
  intro u hu
  rw [mem_singleton] at hu
  exact hu ▸ h

theorem union {s₁ s₂ : TerminalSet} (h₁ : Within n s₁) (h₂ : Within n s₂) : Within n (s₁ ∪ s₂) := by
  intro t ht
  rw [mem_union] at ht
  exact ht.elim (h₁ t) (h₂ t)

theorem bits_lt {s : TerminalSet} (h : Within n s) : s.bits < 1 <<< n := by
  rw [Nat.one_shiftLeft]
  apply Nat.lt_pow_two_of_testBit
  intro i hi
  rw [← Bool.not_eq_true]
  exact fun hb => Nat.not_lt.mpr hi (h ⟨i⟩ hb)

end Within

-- A set is part of another one when it adds nothing to it.
def subset (s₁ s₂ : TerminalSet) : Bool := s₁.bits ||| s₂.bits == s₂.bits

theorem subset_iff {s₁ s₂ : TerminalSet} : s₁.subset s₂ = true ↔ ∀ t, t ∈ s₁ → t ∈ s₂ := by
  simp only [subset, beq_iff_eq]
  constructor
  case mp =>
    intro h t ht
    rw [mem_def] at ht ⊢
    rw [← h, Nat.testBit_or, ht, Bool.true_or]
  case mpr =>
    intro h
    apply Nat.eq_of_testBit_eq
    intro i
    have hi := h ⟨i⟩
    simp only [mem_def] at hi
    rw [Nat.testBit_or]
    cases h₁ : s₁.bits.testBit i <;> simp_all

def isEmpty (s : TerminalSet) : Bool := s.bits == 0

theorem isEmpty_iff {s : TerminalSet} : s.isEmpty = true ↔ ∀ t, t ∉ s := by
  simp only [isEmpty, beq_iff_eq]
  constructor
  case mp => intro h t; simp [mem_def, h]
  case mpr =>
    intro h
    apply Nat.eq_of_testBit_eq
    intro i
    simpa [mem_def] using h ⟨i⟩

def ofList (ts : List Terminal) : TerminalSet := ts.foldl insert ∅

theorem mem_foldl_insert {ts : List Terminal} {s : TerminalSet} {t : Terminal} :
    t ∈ ts.foldl insert s ↔ t ∈ ts ∨ t ∈ s := by
  induction ts generalizing s <;> simp_all [or_left_comm, or_comm, or_assoc]

@[simp]
theorem mem_ofList {ts : List Terminal} {t : Terminal} : t ∈ ofList ts ↔ t ∈ ts := by
  simp [ofList, mem_foldl_insert]

-- No bit at or above the width of `bits` is set, so the members all lie below it.
def toList (s : TerminalSet) : List Terminal :=
  (List.range (s.bits.log2 + 1) |>.map Terminal.mk).filter s.contains

@[simp]
theorem mem_toList {s : TerminalSet} {t : Terminal} : t ∈ s.toList ↔ t ∈ s := by
  simp only [toList, List.mem_filter, List.mem_map, List.mem_range]
  constructor
  case mp => exact fun h => h.right
  case mpr =>
    intro h
    refine ⟨⟨t.index, ?_, rfl⟩, h⟩
    rw [mem_def] at h
    have hb := Nat.ge_two_pow_of_testBit h
    have hz : s.bits ≠ 0 := by
      intro hz
      simp [hz] at h
    have := (Nat.le_log2 hz).mpr hb
    omega

def size (s : TerminalSet) : Nat := s.toList.length

def text (s : TerminalSet) : String :=
  "\x7b" ++ ", ".intercalate (s.toList.map Tagged.tag) ++ "\x7d"

end TerminalSet
end CanonicalLR
