import CanonicalLR.Iteration
import CanonicalLR.TerminalSet
import CanonicalLR.Grammar.Basic

namespace CanonicalLR

-- FIRST of a sequence of symbols: the terminals that begin the strings it derives, and whether the
-- empty string is one of them.
structure First where
  terminals : TerminalSet
  epsilon : Bool
  deriving DecidableEq

namespace Symbol

-- Terminals never vanish, nonterminals do if they are known to derive the empty string.
def vanishes (known : List Nonterminal) : Symbol → Bool
  | .terminal _ => false
  | .nonterminal n => n ∈ known

theorem vanishes_mono {l₁ l₂ : List Nonterminal} {s : Symbol} (h : l₁ ⊆ l₂) (hs : s.vanishes l₁) :
    s.vanishes l₂ := by
  cases s
  case terminal => contradiction
  case nonterminal => simpa [vanishes] using h (by simpa [vanishes] using hs)

end Symbol

namespace Grammar

variable {V : Type}

-- The heads of the productions whose bodies vanish.
def nullableRound (g : Grammar V) (known : List Nonterminal) : List Nonterminal :=
  (g.productions.filter (·.body.all (Symbol.vanishes known))).map (·.head)

theorem nullableRound_mono {g : Grammar V} {l₁ l₂ : List Nonterminal} (h : l₁ ⊆ l₂) :
    (g.nullableRound l₁).Sublist (g.nullableRound l₂) := by
  apply List.Sublist.map
  induction g.productions
  case nil => simp
  case cons p ps hi =>
    simp only [List.filter_cons]
    split
    case isTrue hp =>
      have : p.body.all (Symbol.vanishes l₂) = true := by
        simp only [List.all_eq_true] at hp ⊢
        exact fun s hs => Symbol.vanishes_mono h (hp s hs)
      simpa [this] using hi
    case isFalse =>
      split
      · exact hi.cons _
      · exact hi

theorem nullableRound_length_le {g : Grammar V} {l : List Nonterminal} :
    (g.nullableRound l).length ≤ g.productions.length := by
  simpa [nullableRound] using List.length_filter_le _ _

theorem nullable_run_isSome (g : Grammar V) :
    (Step.run (Step.stabilize g.nullableRound) (g.productions.length + 1) []).isSome := by
  apply Step.run_stabilize_isSome (P := fun l => l.Sublist (g.nullableRound l)) (m := List.length)
  case keep => exact fun _ h => nullableRound_mono h.subset
  case le => exact fun _ h => Nat.le_trans h.length_le nullableRound_length_le
  case grow =>
    intro _ h hn
    exact Nat.lt_of_le_of_ne h.length_le fun he => hn (h.eq_of_length he).symm
  case ha => simp
  case hn => simp

-- The nonterminals that derive the empty string. Every round before the last one finds a production
-- more, so there are at most as many of them as there are productions.
def nullable (g : Grammar V) : List Nonterminal :=
  (Step.run (Step.stabilize g.nullableRound) (g.productions.length + 1) []).get g.nullable_run_isSome

theorem nullableRound_nullable {g : Grammar V} : g.nullableRound g.nullable = g.nullable :=
  Step.run_stabilize_stable (Option.some_get _).symm

end Grammar

structure FirstSets where
  terminalCount : Nat
  nullable : List Nonterminal
  -- The sets of the nonterminals, in the order of their declaration.
  sets : List TerminalSet
  deriving DecidableEq

namespace FirstSets

-- FIRST of one symbol without the empty string. Symbols that are not declared begin nothing.
def first (f : FirstSets) : Symbol → TerminalSet
  | .terminal t => if t.index < f.terminalCount then .singleton t else ∅
  | .nonterminal n => f.sets[n.index]?.getD ∅

def isNullable (f : FirstSets) (s : Symbol) : Bool := s.vanishes f.nullable

-- A sequence begins with what its first symbol begins with and, where that vanishes, with what the
-- rest of the sequence begins with.
def sequence (f : FirstSets) : List Symbol → First
  | [] => ⟨∅, true⟩
  | s :: rest =>
    if f.isNullable s then
      let tail := f.sequence rest
      ⟨f.first s ∪ tail.terminals, tail.epsilon⟩
    else
      ⟨f.first s, false⟩

-- FIRST of `rest z` for all lookaheads `z`. It contains the empty string only if `rest` vanishes and
-- there are no lookaheads.
def localFirst (f : FirstSets) (rest : List Symbol) (lookaheads : TerminalSet) : First :=
  let first := f.sequence rest
  if first.epsilon ∧ ¬ lookaheads.isEmpty then
    ⟨first.terminals ∪ lookaheads, false⟩
  else
    first

-- No set has a member that is not declared.
structure Bounded (f : FirstSets) (terminals nonterminals : Nat) : Prop where
  count : f.terminalCount = terminals
  length : f.sets.length = nonterminals
  sets : ∀ s ∈ f.sets, s.Within terminals

theorem Bounded.first {f : FirstSets} {t n : Nat} {s : Symbol} (h : f.Bounded t n) :
    (f.first s).Within t := by
  cases s
  case terminal u =>
    simp only [FirstSets.first, h.count]
    split
    · exact .singleton ‹_›
    · exact .empty
  case nonterminal u =>
    simp only [FirstSets.first]
    cases hu : f.sets[u.index]?
    case none => exact .empty
    case some s => exact h.sets s (List.mem_of_getElem? hu)

theorem Bounded.sequence {f : FirstSets} {t n : Nat} {l : List Symbol} (h : f.Bounded t n) :
    (f.sequence l).terminals.Within t := by
  induction l
  case nil => exact .empty
  case cons s l hi =>
    simp only [FirstSets.sequence]
    split
    · exact h.first.union hi
    · exact h.first

end FirstSets

namespace Grammar

variable {V : Type}

-- What a nonterminal begins with: what is known already, and what the bodies of its productions
-- begin with.
def beginnings (g : Grammar V) (f : FirstSets) (n : Nonterminal) : TerminalSet :=
  (g.productionsOf n).foldl (fun s p => s ∪ (f.sequence p.body).terminals) (f.first n)

theorem le_foldl_union {f : FirstSets} {ps : List (Production V)} {s : TerminalSet} :
    s.bits ≤ (ps.foldl (fun s p => s ∪ (f.sequence p.body).terminals) s).bits := by
  induction ps generalizing s
  case nil => exact Nat.le_refl _
  case cons p ps hi => exact Nat.le_trans TerminalSet.bits_le_union hi

theorem foldl_union_within {f : FirstSets} {ps : List (Production V)} {s : TerminalSet} {t n : Nat}
    (h : f.Bounded t n) (hs : s.Within t) :
    (ps.foldl (fun s p => s ∪ (f.sequence p.body).terminals) s).Within t := by
  induction ps generalizing s
  case nil => exact hs
  case cons p ps hi => exact hi (hs.union h.sequence)

def firstRound (g : Grammar V) (f : FirstSets) : FirstSets :=
  { f with sets := g.nonterminalIds.map (g.beginnings f) }

def firstStart (g : Grammar V) : FirstSets where
  terminalCount := g.terminals.length
  nullable := g.nullable
  sets := List.replicate g.nonterminals.length ∅

-- A round only adds to the sets, and the bits of each set form a number that is limited by the number
-- of terminals.
def firstLimit (g : Grammar V) : Nat := g.nonterminals.length * 1 <<< g.terminals.length

section Termination

variable {g : Grammar V} {f : FirstSets}

theorem firstRound_bounded (h : f.Bounded g.terminals.length g.nonterminals.length) :
    (g.firstRound f).Bounded g.terminals.length g.nonterminals.length where
  count := h.count
  length := by simp [firstRound, Vocabulary.nonterminalIds]
  sets s hs := by
    simp only [firstRound, List.mem_map] at hs
    obtain ⟨n, _, rfl⟩ := hs
    exact foldl_union_within h h.first

theorem sets_eq_map (h : f.sets.length = g.nonterminals.length) :
    f.sets = g.nonterminalIds.map fun n : Nonterminal => f.first n := by
  apply List.ext_getElem
  · simp [h, Vocabulary.nonterminalIds]
  · intro i h₁ _
    simp [FirstSets.first, Vocabulary.nonterminalIds, List.getElem?_eq_getElem h₁]

def totalBits : List TerminalSet → Nat
  | [] => 0
  | s :: ss => s.bits + totalBits ss

theorem totalBits_le {ss : List TerminalSet} {n : Nat} (h : ∀ s ∈ ss, s.Within n) :
    totalBits ss ≤ ss.length * 1 <<< n := by
  induction ss
  case nil => simp [totalBits]
  case cons s ss hi =>
    have := (h s (by simp)).bits_lt
    have := hi fun s hs => h s (by simp [hs])
    simp only [totalBits, List.length_cons, Nat.succ_mul]
    omega

theorem totalBits_map_le {ns : List Nonterminal} {a b : Nonterminal → TerminalSet}
    (h : ∀ n, (a n).bits ≤ (b n).bits) : totalBits (ns.map a) ≤ totalBits (ns.map b) := by
  induction ns
  case nil => simp
  case cons n ns hi =>
    have := h n
    simp only [List.map_cons, totalBits]
    omega

theorem totalBits_map_lt {ns : List Nonterminal} {a b : Nonterminal → TerminalSet}
    (h : ∀ n, (a n).bits ≤ (b n).bits) (hn : ns.map a ≠ ns.map b) :
    totalBits (ns.map a) < totalBits (ns.map b) := by
  induction ns
  case nil => contradiction
  case cons n ns hi =>
    have hn₁ := h n
    have hn₂ : totalBits (ns.map a) ≤ totalBits (ns.map b) := totalBits_map_le h
    simp only [List.map_cons, totalBits] at hn ⊢
    by_cases he : ns.map a = ns.map b
    case neg =>
      have := hi he
      omega
    case pos =>
      have : (a n).bits ≠ (b n).bits := fun hb => hn (by rw [he, TerminalSet.ext hb])
      omega

theorem totalBits_firstRound (h : f.Bounded g.terminals.length g.nonterminals.length)
    (hn : g.firstRound f ≠ f) : totalBits f.sets < totalBits (g.firstRound f).sets := by
  rw [sets_eq_map h.length]
  apply totalBits_map_lt
  case h => exact fun _ => le_foldl_union
  case hn =>
    intro he
    apply hn
    rw [firstRound, ← he, ← sets_eq_map h.length]

theorem firstStart_bounded : g.firstStart.Bounded g.terminals.length g.nonterminals.length where
  count := rfl
  length := by simp [firstStart]
  sets s hs := by
    simp only [firstStart, List.mem_replicate] at hs
    exact hs.right ▸ .empty

theorem firstSets_run_isSome (g : Grammar V) :
    (Step.run (Step.stabilize g.firstRound) (g.firstLimit + 1) g.firstStart).isSome := by
  apply Step.run_stabilize_isSome (P := (·.Bounded g.terminals.length g.nonterminals.length))
    (m := fun f => totalBits f.sets)
  case keep => exact fun _ => firstRound_bounded
  case le =>
    intro f h
    have := totalBits_le h.sets
    rwa [h.length] at this
  case grow => exact fun _ => totalBits_firstRound
  case ha => exact firstStart_bounded
  case hn => simp only [firstLimit]; omega

end Termination

def firstSets (g : Grammar V) : FirstSets :=
  (Step.run (Step.stabilize g.firstRound) (g.firstLimit + 1) g.firstStart).get g.firstSets_run_isSome

theorem firstRound_firstSets {g : Grammar V} : g.firstRound g.firstSets = g.firstSets :=
  Step.run_stabilize_stable (Option.some_get _).symm

end Grammar
end CanonicalLR
