import CanonicalLR.Example.Ast
import CanonicalLR.Proofs.Propagation

namespace CanonicalLR

variable {V : Type} {g : Grammar V} {α β : List Symbol} {t z : Terminal} {l : TerminalSet} {x : Symbol}

namespace Grammar

-- A terminal behind a string comes first only if the string vanishes.
theorem derives_append_terminal :
    (∃ β, g.Derives (α ++ [.terminal z]) (t :: β)) ↔
      (∃ β, g.Derives α (t :: β)) ∨ g.Derives α [] ∧ t = z := by
  constructor
  case mp =>
    intro ⟨β, hd⟩
    obtain ⟨α', ω, hβ, hα, hz⟩ := hd.split
    obtain rfl := Derives.eq_word (v := [z]) hz
    cases α'
    case nil =>
      obtain ⟨⟨⟩, _⟩ := List.cons_eq_cons.mp hβ
      exact .inr ⟨hα, rfl⟩
    case cons s α' =>
      obtain ⟨rfl, _⟩ := List.cons_eq_cons.mp hβ
      exact .inl ⟨α', hα⟩
  case mpr =>
    rintro (⟨β, hα⟩ | ⟨hα, rfl⟩)
    · exact ⟨β ++ [.terminal z], hα.append_right⟩
    · exact ⟨[], hα.append_right (γ := [.terminal t])⟩

theorem epsilon_iff : (g.firstSets.sequence α).epsilon ↔ g.Derives α [] :=
  ⟨sound_firstSets.epsilon, Derives.epsilon⟩

theorem mem_sequence_iff (hg : g.Scoped) (hα : ∀ s ∈ α, g.Declares s) :
    t ∈ (g.firstSets.sequence α).terminals ↔ ∃ β, g.Derives α (t :: β) := by
  refine ⟨sound_firstSets.sequence, fun ⟨β, hd⟩ => ?_⟩
  exact hd.mem_sequence hg (hd.declares hg hα t List.mem_cons_self)

end Grammar

namespace FirstSets

-- What is computed for a string is what can be derived from it. With lookaheads, one of them stands
-- behind the string.
structure Exact (g : Grammar V) (f : FirstSets) (α : List Symbol) : Prop where
  epsilon : (f.sequence α).epsilon ↔ g.Derives α []
  terminals : ∀ t, t ∈ (f.sequence α).terminals ↔ ∃ β, g.Derives α (t :: β)
  localEpsilon : ∀ l, (f.localFirst α l).epsilon ↔ g.Derives α [] ∧ ∀ t, t ∉ l
  localTerminals : ∀ l t, t ∈ (f.localFirst α l).terminals ↔
    (∃ z ∈ l, ∃ β, g.Derives (α ++ [.terminal z]) (t :: β)) ∨ t ∈ (f.sequence α).terminals

theorem exact_firstSets (hg : g.Scoped) (hα : ∀ s ∈ α, g.Declares s) : Exact g g.firstSets α where
  epsilon := Grammar.epsilon_iff
  terminals _ := Grammar.mem_sequence_iff hg hα
  localEpsilon l := by rw [localFirst_epsilon, Grammar.epsilon_iff]
  localTerminals l t := by
    rw [mem_localFirst, Grammar.epsilon_iff, Grammar.mem_sequence_iff hg hα]
    simp only [Grammar.derives_append_terminal]
    constructor
    case mp =>
      rintro (h | ⟨hα, ht⟩)
      · exact .inr h
      · exact .inl ⟨t, ht, .inr ⟨hα, rfl⟩⟩
    case mpr =>
      rintro (⟨z, hz, h | ⟨hα, rfl⟩⟩ | h)
      · exact .inl h
      · exact .inr ⟨hα, hz⟩
      · exact .inl h

theorem Exact.congr {f f' : FirstSets} (h : Exact g f α) (hs : f'.sequence α = f.sequence α) :
    Exact g f' α := by
  have hl (l : TerminalSet) : f'.localFirst α l = f.localFirst α l := by rw [localFirst, localFirst, hs]
  exact {
    epsilon := hs ▸ h.epsilon
    terminals := hs ▸ h.terminals
    localEpsilon := fun l => hl l ▸ h.localEpsilon l
    localTerminals := fun l => hl l ▸ hs ▸ h.localTerminals l }

theorem isNullable_iff : g.firstSets.isNullable x ↔ g.Derives [x] [] := by
  rw [← Grammar.epsilon_iff, sequence_epsilon, List.all_cons, List.all_nil, Bool.and_true]

theorem mem_first_iff (hg : g.Scoped) (hx : g.Declares x) :
    t ∈ g.firstSets.first x ↔ ∃ β, g.Derives [x] (t :: β) := by
  rw [← Grammar.mem_sequence_iff hg (List.forall_mem_singleton.mpr hx), mem_sequence_cons]
  simp [sequence]

end FirstSets

open Step FirstSets in
-- The loops that visit one production or one constraint after the other end with these sets as well.
theorem Grammar.propagated_exact (hg : g.Scoped) : ∃ known f,
    run (pass discover g.productions) (g.productions.length + 1) g.emptyHeads = some known ∧
      run (pass impose (g.constraints known)) (g.firstLimit + 1) (g.propagationStart known) = some f ∧
      (∀ x : Symbol, f.isNullable x = g.firstSets.isNullable x ∧ f.first x = g.firstSets.first x) ∧
      ∀ α : List Symbol, (∀ s ∈ α, g.Declares s) → Exact g f α := by
  have ⟨known, f, hknown, hf⟩ := exists_propagated g
  have hk (n : Nonterminal) : n ∈ known ↔ n ∈ g.nullable := mem_discovered hknown
  refine ⟨known, f, hknown, hf, fun x => ⟨isNullable_propagated hk hf, first_propagated hk hf⟩, fun α hα => ?_⟩
  exact (exact_firstSets hg hα).congr (sequence_propagated hk hf α)

open FirstSets in
-- Removing productions takes away derivations, but no symbols.
theorem Grammar.firstSets_exact {declarations : List (Declaration V)} (hg : define declarations = .ok g)
    (removed : List ProductionId) :
    (∀ α : List Symbol, (∀ s ∈ α, g.Declares s) →
      Exact (g.remove removed) (g.remove removed).firstSets α) ∧
    ∀ x : Symbol, g.Declares x →
      ((g.remove removed).firstSets.isNullable x ↔ (g.remove removed).Derives [x] []) ∧
      ∀ t, t ∈ (g.remove removed).firstSets.first x ↔
        ∃ β, (g.remove removed).Derives [x] (t :: β) := by
  have hg : (g.remove removed).Scoped := (augmented_of_define hg).scoped.remove
  constructor
  case left => exact fun _ hα => exact_firstSets hg hα
  case right => exact fun _ hx => ⟨isNullable_iff, fun _ => mem_first_iff hg hx⟩

namespace Example.Nested

def a : Terminal := ⟨1⟩
def b : Terminal := ⟨2⟩
def s : Nonterminal := ⟨1⟩

-- `S := a S b | ε`
def declarations : List (Declaration Ast) := [
  .terminal "a", .terminal "b", .nonterminal "S", .production s [a, s, b] .none, .production s [] .none]

def grammar : Grammar Ast where
  terminals := ["$eof", "a", "b"]
  nonterminals := ["$start", "S"]
  productions := [
    ⟨.accept, .start, [.nonterminal s], .none⟩,
    ⟨⟨1⟩, s, [a, s, b], ⟨[none, none, none, none], false⟩⟩,
    ⟨⟨2⟩, s, [], ⟨[none], false⟩⟩]
  startSymbol := s

theorem define_eq : Grammar.define declarations = .ok grammar := by rfl

end Example.Nested

open Example.Nested in
-- Without the empty production `S` derives no string of terminals, and yet it begins with `a`.
theorem Grammar.firstSets_exact_nested :
    grammar.Derives [s, s] [] ∧
    (∀ t : Terminal, (∃ β, grammar.Derives [s, b] (t :: β)) ↔ t = a ∨ t = b) ∧
    ¬ (grammar.remove [⟨2⟩]).Derives [s] [] ∧
    ∀ t : Terminal, (∃ β, (grammar.remove [⟨2⟩]).Derives [s, b] (t :: β)) ↔ t = a := by
  have ⟨hwhole, _⟩ := firstSets_exact define_eq []
  have ⟨hrest, hsingle⟩ := firstSets_exact define_eq [⟨2⟩]
  rw [remove_nil] at hwhole
  have hsb : ∀ x ∈ [Symbol.nonterminal s, Symbol.terminal b], grammar.Declares x := by decide
  refine ⟨(hwhole [s, s] (by decide)).epsilon.mp (by cbv), fun t => ?_,
    mt (hsingle s (by decide)).left.mpr (Bool.eq_false_iff.mp (by cbv)), fun t => ?_⟩
  · rw [← (hwhole _ hsb).terminals]
    have : (grammar.firstSets.sequence [s, b]).terminals = .ofList [a, b] := by cbv
    simp [this]
  · rw [← (hrest _ hsb).terminals]
    have : ((grammar.remove [⟨2⟩]).firstSets.sequence [s, b]).terminals = .singleton a := by cbv
    simp [this]

end CanonicalLR
