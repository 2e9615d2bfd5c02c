import CanonicalLR.Proofs.ErrorDetection
import CanonicalLR.Proofs.Termination

namespace CanonicalLR

-- The error in front of the token with the given number.
def ParseError.before (tokens : List (Token Terminal)) (k : Nat) : ParseError :=
  match tokens[k]? with
  | some token => .unexpectedToken token.lexeme token.position
  | none => .tokensExhausted

section

open CanonicalLR.Tree Automaton

variable {V W : Type} {tokens shifted : List (Token Terminal)} {token : Token Terminal}

namespace Grammar

-- The tokens begin a sentence up to the one with the given number, and not any further.
structure Stops (g : Grammar V) (tokens : List (Token Terminal)) (k : Nat) : Prop where
  bound : k ≤ tokens.length
  viable : g.Viable ((tokens.take k).map Token.kind)
  stuck : k < tokens.length → ¬ g.Viable ((tokens.take (k + 1)).map Token.kind)

namespace Stops

variable {g : Grammar V} {j k : Nat}

theorem le (h₁ : g.Stops tokens j) (h₂ : g.Stops tokens k) : k ≤ j := by
  refine Nat.not_lt.mp fun hk => ?_
  have hj : j < tokens.length := by
    have := h₂.bound
    omega
  refine h₁.stuck hj (h₂.viable.of_prefix ?_)
  exact (List.take_prefix_take_left (by omega)).map _

theorem unique (h₁ : g.Stops tokens j) (h₂ : g.Stops tokens k) : j = k :=
  Nat.le_antisymm (h₂.le h₁) (h₁.le h₂)

theorem transfer {g' : Grammar W} (hs : ∀ w, g.Sentence w ↔ g'.Sentence w) (h : g.Stops tokens k) :
    g'.Stops tokens k := by
  have hv u : g.Viable u ↔ g'.Viable u := exists_congr fun w => and_congr_left' (hs w)
  exact ⟨h.bound, (hv _).mp h.viable, fun hk => mt (hv _).mpr (h.stuck hk)⟩

end Stops
end Grammar

namespace Table

variable {g : Grammar V} {g' : Grammar W} {a : Automaton} {table table' : Table} {e : ParseError}
variable {out : Output ProductionId} {limit : Nat} {w : List Terminal}

theorem stops_of_parse (hg : g.Augmented) (hl : g.Short) (hp : g.Productive) (ht : compile g = .ok table)
    (hc : table.conflicts = []) (h : table.machine.parse? limit tokens = some (.error e)) :
    ∃ k, g.Stops tokens k ∧ e = .before tokens k := by
  obtain ⟨a, ha, rfl⟩ := compile_canonical ht
  have ⟨n, c, _, hr, hd⟩ := Step.reaches_of_run h
  have ⟨trees, hb⟩ := Builds.reaches hg ha hr
  have ⟨top, below, hs⟩ := hb.spine.exists_cons
  have hk := Machine.rest_eq_drop hr
  have hv := hb.viable hg hl hp ha hs
  rw [hb.yield_eq hk] at hv
  cases hb.fails_cases hg ha (Machine.step_eq_error.mp hd)
  case inl h =>
    -- All tokens have been shifted.
    obtain ⟨hrest, rfl⟩ := h
    have hle := List.drop_eq_nil_iff.mp (hk ▸ hrest)
    rw [List.take_of_length_le hle] at hv
    refine ⟨tokens.length, ⟨Nat.le_refl _, ?_, fun h => absurd h (Nat.lt_irrefl _)⟩, ?_⟩
    · rwa [List.take_length]
    · simp [ParseError.before]
  case inr h =>
    obtain ⟨top, below, token, rest, hs, hrest, hact, rfl⟩ := h
    have hlookup := Machine.lookup?_eq_some (m := (ofAutomaton g a).machine).mpr
      ⟨top, below, token, rest, hs, hrest, hact⟩
    have hnext : tokens[c.operations.count .shift]? = some token := by
      rw [← List.head?_drop, ← hk, hrest, List.head?_cons]
    have ⟨hlt, _⟩ := List.getElem?_eq_some_iff.mp hnext
    refine ⟨_, ⟨Nat.le_of_lt hlt, hv, fun _ => not_viable_of_unexpected hg hl ha hc hr hlookup⟩, ?_⟩
    simp [ParseError.before, hnext]

-- A sentence in front of an end of input is accepted.
theorem exists_parse_of_sentence (rest : List (Token Terminal)) (hg : g.Augmented) (hl : g.Short)
    (ht : compile g = .ok table) (hc : table.conflicts = []) (hw : g.Sentence w)
    (hy : shifted.map Token.kind = w) (hk : token.kind = .eof) :
    ∃ limit out tree, table.machine.parse? limit (shifted ++ token :: rest) = some (.ok out) ∧
      out.Describes g (shifted ++ token :: rest) tree ∧ tree.yield = w := by
  obtain ⟨a, ha, rfl⟩ := compile_canonical ht
  obtain ⟨tree, ht, hs, rfl⟩ := hg.sentence_iff.mp hw
  have hkinds : (shifted ++ token :: rest).map Token.kind =
      tree.yield ++ .eof :: rest.map Token.kind := by
    simp [hy, hk]
  exact ⟨_, _, tree, ha.parse?_of_tree hg hl hc ht hs hkinds (Nat.lt_succ_self _),
    ⟨ht, hs, ⟨shifted, token, rest, rfl, hy, hk⟩, rfl, rfl⟩, rfl⟩

theorem exists_parse_of_parse (hg : g.Augmented) (hg' : g'.Augmented) (hl' : g'.Short)
    (ht : compile g = .ok table) (ht' : compile g' = .ok table') (hc' : table'.conflicts = [])
    (hs : ∀ w, g.Sentence w ↔ g'.Sentence w)
    (h : table.machine.parse? limit tokens = some (.ok out)) :
    ∃ tree limit' out' tree', table'.machine.parse? limit' tokens = some (.ok out') ∧
      out.Describes g tokens tree ∧ out'.Describes g' tokens tree' ∧ tree'.yield = tree.yield := by
  have ⟨tree, hd⟩ := exists_describes_of_parse hg ht h
  obtain ⟨shifted, token, rest, rfl, hy, hk⟩ := hd.covered
  have hw := hg.sentence_iff.mpr ⟨tree, hd.wellFormed, hd.symbol, rfl⟩
  have ⟨limit', out', tree', hp', hd', hy'⟩ :=
    exists_parse_of_sentence rest hg' hl' ht' hc' ((hs _).mp hw) hy hk
  exact ⟨tree, limit', out', tree', hp', hd, hd', hy'⟩

-- What the machines for two grammars with the same sentences come to.
theorem parse_cases (hg : g.Augmented) (hg' : g'.Augmented) (hl : g.Short) (hl' : g'.Short)
    (hp : g.Productive) (hp' : g'.Productive)
    (ht : compile g = .ok table) (ht' : compile g' = .ok table') (hc : table.conflicts = [])
    (hc' : table'.conflicts = []) (hs : ∀ w, g.Sentence w ↔ g'.Sentence w)
    (tokens : List (Token Terminal)) :
    ∃ limit,
      (∃ out out' tree tree', table.machine.parse? limit tokens = some (.ok out) ∧
        table'.machine.parse? limit tokens = some (.ok out') ∧ out.Describes g tokens tree ∧
        out'.Describes g' tokens tree' ∧ tree'.yield = tree.yield) ∨
      ∃ k, table.machine.parse? limit tokens = some (.error (.before tokens k)) ∧
        table'.machine.parse? limit tokens = some (.error (.before tokens k)) := by
  have halts {V : Type} {g : Grammar V} {table : Table} (hg : g.Augmented) (hl : g.Short)
      (ht : compile g = .ok table) (hc : table.conflicts = []) :
      ∃ limit r, table.machine.parse? limit tokens = some r := by
    obtain ⟨a, ha, rfl⟩ := compile_canonical ht
    exact exists_run hg hl ha hc (.refl _)
  have ⟨m, r, hm⟩ := halts hg hl ht hc
  have ⟨n, r', hn⟩ := halts hg' hl' ht' hc'
  cases r
  case ok out =>
    have ⟨tree, n, out', tree', hn, hd, hd', hy⟩ :=
      exists_parse_of_parse hg hg' hl' ht ht' hc' hs hm
    exact ⟨m + n, .inl ⟨out, out', tree, tree', Step.run_mono hm (by omega),
      Step.run_mono hn (by omega), hd, hd', hy⟩⟩
  case error e =>
    cases r'
    case ok out' =>
      -- Then the first machine would accept as well.
      have ⟨_, l, _, _, hrun, _⟩ := exists_parse_of_parse hg' hg hl ht' ht hc (fun w => (hs w).symm) hn
      have h₁ := Step.run_mono hm (by omega : m ≤ m + l)
      have h₂ := Step.run_mono hrun (by omega : l ≤ m + l)
      cases h₁.symm.trans h₂
    case error e' =>
      obtain ⟨k, hk, rfl⟩ := stops_of_parse hg hl hp ht hc hm
      obtain ⟨k', hk', rfl⟩ := stops_of_parse hg' hl' hp' ht' hc' hn
      cases (hk.transfer hs).unique hk'
      exact ⟨m + n, .inr ⟨k, Step.run_mono hm (by omega), Step.run_mono hn (by omega)⟩⟩

end Table
end
end CanonicalLR
