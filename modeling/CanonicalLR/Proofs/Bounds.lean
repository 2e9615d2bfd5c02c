import CanonicalLR.Proofs.Safety

namespace CanonicalLR

-- A run that exceeds its limit has taken as many steps.
theorem Step.exists_reaches_of_run {σ ρ : Type} {step : σ → Step σ ρ} {limit : Nat} {s : σ}
    (h : run step limit s = none) : ∃ s', Reaches step limit s s' := by
  induction limit generalizing s
  case zero => exact ⟨s, .refl s⟩
  case succ limit hi =>
    simp only [run] at h
    split at h
    case h_1 hs =>
      obtain ⟨s', hr⟩ := hi h
      exact ⟨s', .next hs hr⟩
    case h_2 => contradiction

theorem Machine.length_operations {σ τ ν ρ : Type} {m : Machine σ τ ν ρ} {c c' : Config σ τ ρ} {n : Nat}
    (h : Step.Reaches m.step n c c') : c'.operations.length = c.operations.length + n := by
  induction h
  case refl => rfl
  case next hs _ hi =>
    rw [hi]
    cases step_eq_next.mp hs
    all_goals
      simp only [List.length_cons]
      omega

section

open CanonicalLR.Tree Automaton

variable {V : Type} {g : Grammar V} {a : Automaton} {tokens : List (Token Terminal)} {trees ts : List Tree}
variable {c : Config StateId Terminal ProductionId} {t : Tree} {x : Terminal} {k : Nat}

theorem Spine.exists_body {stack : List StateId} {γ : List Symbol} (ha : Canonical g a)
    (h : Spine a stack γ) {x : Symbol} (hx : x ∈ γ) : ∃ p ∈ g.productions, x ∈ p.body := by
  induction h
  case root => contradiction
  case push hs ht hi =>
    cases hx
    case tail hx => exact hi hx
    case head =>
      have ⟨ho, _⟩ := ha.target _ (List.mem_of_getElem? hs) _ _ ht
      have ⟨_, c, _, hn⟩ := ItemSet.mem_outgoing_iff.mp ho
      have ⟨p, hp, hb⟩ := Option.bind_eq_some_iff.mp hn
      exact ⟨p, Grammar.production?_mem hp, List.mem_of_getElem? hb⟩

theorem Builds.exists_body (ha : Canonical g a) (h : Builds g a tokens c trees) (ht : t ∈ trees) :
    ∃ p ∈ g.productions, t.symbol ∈ p.body :=
  h.spine.exists_body ha (List.mem_map_of_mem ht)

namespace Tree

-- A terminal that stands in no body is no leaf of a node.
theorem WellFormed.notMem_yield (hx : ∀ p ∈ g.productions, .terminal x ∉ p.body) (h : t.WellFormed g)
    (hs : t.symbol ≠ .terminal x) : x ∉ t.yield := by
  induction h
  case leaf y =>
    rw [yield, List.mem_singleton]
    rintro rfl
    exact hs rfl
  case node p ts hp hb _ hi =>
    rw [yield, yieldAll_eq, List.mem_flatMap]
    rintro ⟨t, ht, hy⟩
    refine hi t ht (fun he => ?_) hy
    have hm : t.symbol ∈ p.body := hb ▸ List.mem_map_of_mem ht
    exact hx p (Grammar.production?_mem hp) (he ▸ hm)

theorem length_operationsAll_le (h : ∀ t ∈ ts, t.operations.length ≤ k * t.yield.length) :
    (operationsAll ts).length ≤ k * (yieldAll ts).length := by
  induction ts
  case nil => exact Nat.zero_le _
  case cons t ts hi =>
    have ⟨ht, hts⟩ := List.forall_mem_cons.mp h
    rw [operationsAll, yieldAll, List.length_append, List.length_append, Nat.mul_add]
    exact Nat.add_le_add ht (hi hts)

end Tree

theorem Builds.length_operations_le (h : Builds g a tokens c trees)
    (hk : ∀ t ∈ trees, t.operations.length ≤ k * t.yield.length) :
    c.operations.length ≤ k * tokens.length := by
  have ⟨shifted, hs, hy⟩ := h.shifted
  have hl : (yieldAll trees.reverse).length ≤ tokens.length := by
    rw [← hy, hs, List.length_map, List.length_append]
    exact Nat.le_add_right ..
  have ho := length_operationsAll_le fun t ht => hk t (List.mem_reverse.mp ht)
  rw [← h.operations, List.length_reverse] at ho
  exact Nat.le_trans ho (Nat.mul_le_mul_left k hl)

namespace Table

variable {table : Table} {limit : Nat}

theorem exists_parse_of_bound (hg : g.Augmented) (ht : compile g = .ok table)
    (hk : ∀ t : Tree, t.WellFormed g → (∃ p ∈ g.productions, t.symbol ∈ p.body) →
      t.operations.length ≤ k * t.yield.length)
    (hl : k * tokens.length < limit) : ∃ r, table.machine.parse? limit tokens = some r := by
  obtain ⟨a, ha, rfl⟩ := compile_canonical ht
  refine Option.ne_none_iff_exists'.mp fun hn => ?_
  have ⟨c, hr⟩ := Step.exists_reaches_of_run hn
  have ⟨trees, hb⟩ := Builds.reaches hg ha hr
  have hle := hb.length_operations_le fun t ht => hk t (hb.wellFormed t ht) (hb.exists_body ha ht)
  rw [Machine.length_operations hr] at hle
  simp only [Machine.start, List.length_nil] at hle
  omega

-- The end of input is not shifted, so the tokens do not end before it has been looked at.
theorem exists_unexpected_of_parse {token : Token Terminal} {e : ParseError} (hg : g.Augmented)
    (ht : compile g = .ok table) (hx : ∀ p ∈ g.productions, .terminal .eof ∉ p.body)
    (hk : token.kind = .eof) (h : table.machine.parse? limit (tokens ++ [token]) = some (.error e)) :
    ∃ t ∈ tokens ++ [token], e = .unexpectedToken t.lexeme t.position := by
  obtain ⟨a, ha, rfl⟩ := compile_canonical ht
  have ⟨n, c, _, hr, hd⟩ := Step.reaches_of_run h
  have ⟨trees, hb⟩ := Builds.reaches hg ha hr
  obtain ⟨hrest, _⟩ | ⟨_, _, t, _, _, hrest, _, rfl⟩ := hb.fails_cases hg ha (Machine.step_eq_error.mp hd)
  · have ⟨shifted, hs, hy⟩ := hb.shifted
    rw [hrest, List.append_nil] at hs
    have hm : Terminal.eof ∈ yieldAll trees.reverse := by
      rw [← hy, ← hs]
      simp [hk]
    rw [yieldAll_eq, List.mem_flatMap] at hm
    obtain ⟨t, ht, hm⟩ := hm
    have ht := List.mem_reverse.mp ht
    refine absurd hm ((hb.wellFormed t ht).notMem_yield hx fun he => ?_)
    have ⟨p, hp, hbody⟩ := hb.exists_body ha ht
    exact hx p hp (he ▸ hbody)
  · have hm : t ∈ c.rest := hrest ▸ List.mem_cons_self
    exact ⟨t, (Machine.rest_suffix_of_reaches hr).mem hm, rfl⟩

end Table
end
end CanonicalLR
