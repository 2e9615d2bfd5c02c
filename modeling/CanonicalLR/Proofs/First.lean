import CanonicalLR.Grammar.First
import CanonicalLR.Proofs.Derivation
import CanonicalLR.Proofs.Run

namespace CanonicalLR

variable {V : Type}

namespace FirstSets

variable {f : FirstSets} {α β : List Symbol} {t : Terminal} {l : TerminalSet}

theorem sequence_epsilon : (f.sequence α).epsilon = α.all f.isNullable := by
  induction α
  case nil => rfl
  case cons s α hi =>
    simp only [sequence, List.all_cons]
    split <;> simp_all

theorem mem_sequence_cons {s : Symbol} :
    t ∈ (f.sequence (s :: α)).terminals ↔
      t ∈ f.first s ∨ f.isNullable s ∧ t ∈ (f.sequence α).terminals := by
  simp only [sequence]
  split <;> simp_all

theorem mem_sequence_append :
    t ∈ (f.sequence (α ++ β)).terminals ↔
      t ∈ (f.sequence α).terminals ∨ (f.sequence α).epsilon ∧ t ∈ (f.sequence β).terminals := by
  induction α
  case nil => simp [sequence]
  case cons s α hi =>
    simp only [List.cons_append, mem_sequence_cons, hi, sequence_epsilon, List.all_cons,
      Bool.and_eq_true, and_or_left, or_assoc, and_assoc]

theorem mem_localFirst :
    t ∈ (f.localFirst α l).terminals ↔
      t ∈ (f.sequence α).terminals ∨ (f.sequence α).epsilon ∧ t ∈ l := by
  simp only [localFirst]
  split
  case isTrue h => simp [h.left]
  case isFalse h =>
    rw [not_and, Decidable.not_not] at h
    refine ⟨.inl, fun ht => ht.elim id fun ⟨he, hl⟩ => ?_⟩
    exact absurd hl (TerminalSet.isEmpty_iff.mp (h he) t)

theorem localFirst_epsilon :
    (f.localFirst α l).epsilon ↔ (f.sequence α).epsilon ∧ ∀ t, t ∉ l := by
  simp only [localFirst, ← TerminalSet.isEmpty_iff]
  split
  case isTrue h => simp [h.right]
  case isFalse h =>
    rw [not_and, Decidable.not_not] at h
    exact ⟨fun he => ⟨he, h he⟩, And.left⟩

end FirstSets

namespace Grammar

variable {g : Grammar V} {f : FirstSets} {n : Nonterminal} {t : Terminal} {p : Production V}
variable {α β : List Symbol}

theorem mem_foldl_union {ps : List (Production V)} {s : TerminalSet} :
    t ∈ ps.foldl (fun s p => s ∪ (f.sequence p.body).terminals) s ↔
      t ∈ s ∨ ∃ p ∈ ps, t ∈ (f.sequence p.body).terminals := by
  induction ps generalizing s
  case nil => simp
  case cons p ps hi => simp [hi, or_assoc]

theorem mem_beginnings :
    t ∈ g.beginnings f n ↔
      t ∈ f.first n ∨ ∃ p ∈ g.productionsOf n, t ∈ (f.sequence p.body).terminals :=
  mem_foldl_union

theorem first_firstRound :
    (g.firstRound f).first n = if g.Declares n then g.beginnings f n else ∅ := by
  simp only [FirstSets.first, firstRound, Vocabulary.nonterminalIds, List.map_map, List.getElem?_map]
  by_cases h : n.index < g.nonterminals.length
  case pos => simp [h, Vocabulary.Declares]
  case neg => simp [h, Vocabulary.Declares]

-- The rounds change nothing but the sets.
theorem firstSets_fixed :
    g.firstSets.nullable = g.nullable ∧ g.firstSets.terminalCount = g.terminals.length :=
  Step.run_stabilize_invariant (f := g.firstRound) (a := g.firstStart)
    (P := fun f => f.nullable = g.nullable ∧ f.terminalCount = g.terminals.length)
    (fun _ h => h) ⟨rfl, rfl⟩ (Option.some_get _).symm

-- The sets are found where the rounds come to an end.
theorem firstSets_eq_of_reaches {k : Nat} (h : Step.Reaches (Step.stabilize g.firstRound) k g.firstStart f)
    (hf : g.firstRound f = f) (hk : k ≤ g.firstLimit) : g.firstSets = f := by
  obtain ⟨m, hm⟩ := Nat.exists_eq_add_of_le hk
  have hrun : Step.run (Step.stabilize g.firstRound) (g.firstLimit + 1) g.firstStart = some f := by
    rw [hm, Nat.add_assoc, h.run]
    simp [Step.run, Step.stabilize, hf]
  simp [firstSets, hrun]

theorem Derives.declares (hg : g.Scoped) (h : g.Derives α β)
    (hα : ∀ x ∈ α, g.Declares x) : ∀ x ∈ β, g.Declares x :=
  h.forall_mem hg.bodies hα

section Stability

theorem mem_nullable_of_body (hp : p ∈ g.productions) (h : p.body.all g.firstSets.isNullable) :
    p.head ∈ g.nullable := by
  rw [← nullableRound_nullable]
  refine List.mem_map_of_mem (List.mem_filter.mpr ⟨hp, ?_⟩)
  simpa [FirstSets.isNullable, firstSets_fixed.left] using h

theorem mem_first_of_body (hg : g.Scoped) (hp : p ∈ g.productions)
    (h : t ∈ (g.firstSets.sequence p.body).terminals) : t ∈ g.firstSets.first p.head := by
  rw [← firstRound_firstSets, first_firstRound, if_pos (hg.heads p hp), mem_beginnings]
  exact .inr ⟨p, mem_productionsOf.mpr ⟨hp, rfl⟩, h⟩

theorem mem_first_terminal (h : g.Declares t) : t ∈ g.firstSets.first t := by
  have h : t.index < g.terminals.length := h
  rw [FirstSets.first, firstSets_fixed.right, if_pos h, TerminalSet.mem_singleton]

theorem Produces.epsilon (hp : g.Produces α β) (h : (g.firstSets.sequence β).epsilon) :
    (g.firstSets.sequence α).epsilon := by
  cases hp
  case rewrite p l r hp =>
    simp only [FirstSets.sequence_epsilon, List.all_append, List.all_cons, Bool.and_eq_true] at h ⊢
    refine ⟨h.left.left, ?_, h.right⟩
    simpa [FirstSets.isNullable, Symbol.vanishes, firstSets_fixed.left] using
      mem_nullable_of_body hp h.left.right

theorem Produces.mem_sequence (hg : g.Scoped) (hp : g.Produces α β)
    (h : t ∈ (g.firstSets.sequence β).terminals) : t ∈ (g.firstSets.sequence α).terminals := by
  cases hp
  case rewrite p l r hp =>
    rw [List.append_assoc, FirstSets.mem_sequence_append, FirstSets.mem_sequence_append] at h
    rw [FirstSets.mem_sequence_append, FirstSets.mem_sequence_cons]
    refine h.imp_right fun ⟨hl, h⟩ => ⟨hl, h.imp ?_ fun ⟨hb, hr⟩ => ⟨?_, hr⟩⟩
    · exact mem_first_of_body hg hp
    · rw [FirstSets.sequence_epsilon] at hb
      simpa [FirstSets.isNullable, Symbol.vanishes, firstSets_fixed.left] using
        mem_nullable_of_body hp hb

-- A rewriting step never adds to what a string begins with, because the sets are stable under the productions.
-- Whatever a string derives is found by the sets.

theorem Derives.epsilon (h : g.Derives α []) : (g.firstSets.sequence α).epsilon := by
  induction h using Relation.ReflTransGen.head_induction_on
  case refl => rfl
  case head hp _ hi => exact hp.epsilon hi

theorem Derives.mem_sequence (hg : g.Scoped) (ht : g.Declares t) (h : g.Derives α (t :: β)) :
    t ∈ (g.firstSets.sequence α).terminals := by
  induction h using Relation.ReflTransGen.head_induction_on
  case refl => exact FirstSets.mem_sequence_cons.mpr (.inl (mem_first_terminal ht))
  case head hp _ hi => exact hp.mem_sequence hg hi

end Stability
end Grammar

-- What FIRST sets claim can be derived.
structure FirstSets.Sound (g : Grammar V) (f : FirstSets) : Prop where
  nullable : ∀ n ∈ f.nullable, g.Derives [.nonterminal n] []
  first : ∀ (n : Nonterminal) (t : Terminal), t ∈ f.first n → ∃ β, g.Derives [.nonterminal n] (t :: β)

namespace FirstSets.Sound

variable {g : Grammar V} {f : FirstSets} {t : Terminal} {α : List Symbol} {s : Symbol}

theorem vanishes {l : List Nonterminal} (hl : ∀ n ∈ l, g.Derives [.nonterminal n] [])
    (h : α.all (Symbol.vanishes l)) : g.Derives α [] := by
  induction α
  case nil => exact .refl
  case cons s α hi =>
    simp only [List.all_cons, Bool.and_eq_true] at h
    cases s
    case terminal => exact absurd h.left (by simp [Symbol.vanishes])
    case nonterminal n =>
      have hn := hl n (by simpa [Symbol.vanishes] using h.left)
      simpa using hn.append (hi h.right)

theorem epsilon (hf : f.Sound g) (h : (f.sequence α).epsilon) : g.Derives α [] :=
  vanishes hf.nullable (sequence_epsilon ▸ h)

theorem symbol (hf : f.Sound g) (h : t ∈ f.first s) : ∃ β, g.Derives [s] (t :: β) := by
  cases s
  case terminal u =>
    simp only [FirstSets.first] at h
    split at h
    case isTrue =>
      rw [TerminalSet.mem_singleton] at h
      exact h ▸ ⟨[], .refl⟩
    case isFalse => exact absurd h TerminalSet.not_mem_empty
  case nonterminal n => exact hf.first n t h

theorem sequence (hf : f.Sound g) (h : t ∈ (f.sequence α).terminals) :
    ∃ β, g.Derives α (t :: β) := by
  induction α
  case nil => exact absurd h TerminalSet.not_mem_empty
  case cons s α hi =>
    cases mem_sequence_cons.mp h
    case inl h =>
      have ⟨β, hβ⟩ := hf.symbol h
      exact ⟨β ++ α, by simpa using hβ.append_right⟩
    case inr h =>
      have ⟨β, hβ⟩ := hi h.right
      have hs := hf.epsilon (α := [s]) (by simp [sequence_epsilon, h.left])
      exact ⟨β, by simpa using hs.append hβ⟩

end FirstSets.Sound

namespace Grammar

variable {g : Grammar V} {n : Nonterminal} {t : Terminal} {α : List Symbol}

theorem derives_of_mem_nullable (h : n ∈ g.nullable) : g.Derives [.nonterminal n] [] := by
  refine Step.run_stabilize_invariant (f := g.nullableRound) (a := [])
    (P := fun l => ∀ n ∈ l, g.Derives [.nonterminal n] [])
    ?_ (by simp) (Option.some_get g.nullable_run_isSome).symm n h
  intro l hl n hn
  obtain ⟨p, hp, rfl⟩ := List.mem_map.mp hn
  have ⟨hp, hb⟩ := List.mem_filter.mp hp
  exact (Derives.production hp).trans (FirstSets.Sound.vanishes hl hb)

theorem sound_firstRound {f : FirstSets} (hf : f.Sound g) : (g.firstRound f).Sound g where
  nullable := hf.nullable
  first n t h := by
    rw [first_firstRound] at h
    split at h
    case isFalse => exact absurd h TerminalSet.not_mem_empty
    case isTrue =>
      cases mem_beginnings.mp h
      case inl h => exact hf.first n t h
      case inr h =>
        have ⟨p, hp, ht⟩ := h
        obtain ⟨hm, rfl⟩ := mem_productionsOf.mp hp
        have ⟨β, hβ⟩ := hf.sequence ht
        exact ⟨β, (Derives.production hm).trans hβ⟩

theorem sound_firstSets : g.firstSets.Sound g := by
  refine Step.run_stabilize_invariant (f := g.firstRound) (a := g.firstStart)
    (P := fun f => f.Sound g) (fun _ => sound_firstRound) ?_ (Option.some_get _).symm
  refine { nullable := fun _ => derives_of_mem_nullable, first := ?first }
  case first =>
    intro n t h
    simp only [FirstSets.first, firstStart, List.getElem?_replicate] at h
    split at h <;> exact absurd h TerminalSet.not_mem_empty

end Grammar
end CanonicalLR
