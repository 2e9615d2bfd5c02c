import CanonicalLR.Grammar.Propagation
import CanonicalLR.Proofs.First
import CanonicalLR.Proofs.Worklist
import Mathlib.Logic.Relation

namespace CanonicalLR

namespace Step

section Halting

variable {σ ρ : Type} {step : σ → Step σ ρ} {limit : Nat} {s : σ}

-- The loop ends, and the limit is never reached, however many steps are granted.
structure Halts (step : σ → Step σ ρ) (limit : Nat) (s : σ) : Prop where
  ends : ∃ r, run step limit s = some r
  within : ∀ n s', Reaches step n s s' → n < limit

theorem Halts.of_run (h : (run step limit s).isSome) : Halts step limit s where
  ends := Option.isSome_iff_exists.mp h
  within n s' hr := by
    have ⟨r, hrun⟩ := Option.isSome_iff_exists.mp h
    refine Nat.lt_of_not_le fun hle => ?_
    have hn : run step n s = none := hr.run (n := 0)
    cases hn.symm.trans (run_mono hrun hle)

end Halting

section Passes

variable {α β : Type} {visit : α → β → Option α} {xs : List β} {a b : α} {changed : Bool}

-- What a single visit of a pass does, if it changes something.
def Changes (visit : α → β → Option α) (xs : List β) (a b : α) : Prop := ∃ x ∈ xs, visit a x = some b

theorem Changes.cons {x : β} (h : Changes visit xs a b) : Changes visit (x :: xs) a b :=
  have ⟨y, hy, hv⟩ := h
  ⟨y, .tail x hy, hv⟩

theorem sweep_cases (visit : α → β → Option α) (xs : List β) (a : α) (changed : Bool) :
    (sweep visit xs (a, changed) = (a, changed) ∧ ∀ x ∈ xs, visit a x = none) ∨
      ∃ b, sweep visit xs (a, changed) = (b, true) ∧ Relation.TransGen (Changes visit xs) a b := by
  induction xs generalizing a changed
  case nil => simp [sweep]
  case cons x xs hi =>
    simp only [sweep]
    split
    case h_1 b hb =>
      have hab : Relation.TransGen (Changes visit (x :: xs)) a b := .single ⟨x, .head xs, hb⟩
      obtain ⟨hs, _⟩ | ⟨c, hs, hc⟩ := hi b true
      · exact .inr ⟨b, hs, hab⟩
      · exact .inr ⟨c, hs, hab.trans (Relation.TransGen.mono (fun _ _ => Changes.cons) _ _ hc)⟩
    case h_2 hn =>
      obtain ⟨hs, hv⟩ | ⟨c, hs, hc⟩ := hi a changed
      · exact .inl ⟨hs, List.forall_mem_cons.mpr ⟨hn, hv⟩⟩
      · exact .inr ⟨c, hs, Relation.TransGen.mono (fun _ _ => Changes.cons) _ _ hc⟩

theorem pass_eq_next (h : pass visit xs a = .next b) : Relation.TransGen (Changes visit xs) a b := by
  obtain ⟨hs, _⟩ | ⟨c, hs, hc⟩ := sweep_cases visit xs a false
  all_goals
    rw [pass, hs] at h
    cases h
  exact hc

theorem pass_eq_done (h : pass visit xs a = .done b) : b = a ∧ ∀ x ∈ xs, visit a x = none := by
  obtain ⟨hs, hv⟩ | ⟨c, hs, _⟩ := sweep_cases visit xs a false
  all_goals
    rw [pass, hs] at h
    cases h
  exact ⟨rfl, hv⟩

variable {P : α → Prop} (keep : ∀ a b, P a → Changes visit xs a b → P b)

include keep

theorem keep_pass (ha : P a) (h : pass visit xs a = .next b) : P b := by
  have hc := pass_eq_next h
  clear h
  induction hc
  case single hc => exact keep _ _ ha hc
  case tail hc hb => exact keep _ _ hb hc

theorem grow_pass {m : α → Nat} (grow : ∀ a b, P a → Changes visit xs a b → m a < m b) (ha : P a)
    (h : pass visit xs a = .next b) : m a < m b := by
  have hc := pass_eq_next h
  clear h
  suffices hb : P b ∧ m a < m b from hb.right
  induction hc
  case single hc => exact ⟨keep _ _ ha hc, grow _ _ ha hc⟩
  case tail hc hb => exact ⟨keep _ _ hb.left hc, Nat.lt_trans hb.right (grow _ _ hb.left hc)⟩

-- Passes come to an end if a quantity grows with every change, up to a bound.
theorem run_pass_isSome {m : α → Nat} {bound limit : Nat}
    (grow : ∀ a b, P a → Changes visit xs a b → m a < m b) (le : ∀ a, P a → m a ≤ bound) (ha : P a)
    (hl : bound < limit) : (run (pass visit xs) limit a).isSome := by
  refine run_isSome (P := P) (m := fun a => bound - m a) (fun _ _ => keep_pass keep) ?_ ha (by omega)
  intro a b ha hb
  have := grow_pass keep grow ha hb
  have := le b (keep_pass keep ha hb)
  omega

-- In the end no visit changes anything.
theorem run_pass_stable {n : Nat} (ha : P a) (h : run (pass visit xs) n a = some b) :
    P b ∧ ∀ x ∈ xs, visit b x = none := by
  have ⟨_, c, _, hr, hd⟩ := reaches_of_run h
  obtain ⟨rfl, hv⟩ := pass_eq_done hd
  exact ⟨hr.invariant (fun _ _ => keep_pass keep) ha, hv⟩

end Passes
end Step

variable {V : Type} {g : Grammar V}

namespace Grammar

open Step

variable {known known' : List Nonterminal} {n : Nonterminal} {p : Production V} {α : List Symbol}

theorem all_vanishes_mono (h : known ⊆ known') (hα : α.all (Symbol.vanishes known)) :
    α.all (Symbol.vanishes known') := by
  rw [List.all_eq_true] at hα ⊢
  exact fun s hs => Symbol.vanishes_mono h (hα s hs)

theorem discover_eq_some : discover known p = some known' ↔
    p.head ∉ known ∧ p.body.all (Symbol.vanishes known) ∧ known' = known ++ [p.head] := by
  simp only [discover]
  split
  case isTrue h => simp [h]
  case isFalse h =>
    split
    case isTrue hb => simp [h, hb, eq_comm]
    case isFalse hb => simp [hb]

theorem discover_eq_none :
    discover known p = none ↔ (p.body.all (Symbol.vanishes known) → p.head ∈ known) := by
  simp only [discover]
  split
  case isTrue h => simp [h]
  case isFalse h =>
    split
    case isTrue hb => simp [h, hb]
    case isFalse hb => simp [hb]

-- The productions whose heads are known.
def settled (g : Grammar V) (known : List Nonterminal) : List (Production V) :=
  g.productions.filter (·.head ∈ known)

theorem length_settled_lt (h : Changes discover g.productions known known') :
    (g.settled known).length < (g.settled known').length := by
  obtain ⟨p, hp, hd⟩ := h
  obtain ⟨hn, _, rfl⟩ := discover_eq_some.mp hd
  have hs : (g.settled known).Sublist (g.settled (known ++ [p.head])) :=
    List.monotone_filter_right _ fun q hq => by simp_all
  refine Nat.lt_of_le_of_ne hs.length_le fun hl => hn ?_
  have hm : p ∈ g.settled (known ++ [p.head]) := List.mem_filter.mpr ⟨hp, by simp⟩
  rw [← hs.eq_of_length hl] at hm
  simpa using (List.mem_filter.mp hm).right

theorem discover_halts (g : Grammar V) :
    Halts (pass discover g.productions) (g.productions.length + 1) g.emptyHeads :=
  .of_run <| run_pass_isSome (P := fun _ => True) (m := fun known => (g.settled known).length)
    (fun _ _ _ _ => trivial) (fun _ _ _ => length_settled_lt) (fun _ _ => List.length_filter_le ..)
    trivial (Nat.lt_succ_self _)

-- A round finds no more than what is closed under all productions.
theorem nullableRound_subset (h : ∀ p ∈ g.productions, discover known p = none) (hk : known' ⊆ known) :
    g.nullableRound known' ⊆ known := by
  intro n hn
  obtain ⟨p, hp, rfl⟩ := List.mem_map.mp hn
  have ⟨hp, hb⟩ := List.mem_filter.mp hp
  exact discover_eq_none.mp (h p hp) (all_vanishes_mono hk hb)

theorem subset_nullable_of_changes (h : known ⊆ g.nullable) (hc : Changes discover g.productions known known') :
    known' ⊆ g.nullable := by
  obtain ⟨p, hp, hd⟩ := hc
  obtain ⟨_, hb, rfl⟩ := discover_eq_some.mp hd
  have hm : p.head ∈ g.nullableRound g.nullable :=
    List.mem_map_of_mem (List.mem_filter.mpr ⟨hp, all_vanishes_mono h hb⟩)
  rw [nullableRound_nullable] at hm
  simpa [List.append_subset] using ⟨h, hm⟩

theorem emptyHeads_subset : g.emptyHeads ⊆ g.nullable := by
  intro n hn
  obtain ⟨p, hp, rfl⟩ := List.mem_map.mp hn
  have ⟨hp, hb⟩ := List.mem_filter.mp hp
  rw [← nullableRound_nullable]
  refine List.mem_map_of_mem (List.mem_filter.mpr ⟨hp, ?_⟩)
  rw [List.isEmpty_iff.mp hb, List.all_nil]

theorem mem_discovered {limit : Nat} (h : run (pass discover g.productions) limit g.emptyHeads = some known) :
    n ∈ known ↔ n ∈ g.nullable := by
  have ⟨hs, hn⟩ := run_pass_stable (P := (· ⊆ g.nullable)) (fun _ _ => subset_nullable_of_changes)
    emptyHeads_subset h
  refine ⟨fun h => hs h, fun h => ?_⟩
  have hk : g.nullable ⊆ known := run_stabilize_invariant (f := g.nullableRound) (a := [])
    (P := (· ⊆ known)) (fun _ => nullableRound_subset hn) (List.nil_subset _) (Option.some_get _).symm
  exact hk h

end Grammar

namespace FirstSets

variable {f f' : FirstSets} {c : Constraint} {s u : TerminalSet} {x : Symbol} {t : Terminal}

theorem impose_eq_some : f.impose c = some f' ↔ ∃ s, f.sets[c.upper.index]? = some s ∧
    ¬ (f.first c.lower).subset s ∧ { f with sets := f.sets.set c.upper.index (s ∪ f.first c.lower) } = f' := by
  simp only [impose]
  split
  case h_1 h => simp [h]
  case h_2 s h =>
    split
    case isTrue hs => simp [h, hs]
    case isFalse hs => simp [h, hs]

theorem impose_eq_none : f.impose c = none ↔
    ∀ s, f.sets[c.upper.index]? = some s → ∀ t ∈ f.first c.lower, t ∈ s := by
  simp only [impose]
  split
  case h_1 h => simp [h]
  case h_2 s h =>
    split
    case isTrue hs => simpa [h] using TerminalSet.subset_iff.mp hs
    case isFalse hs => simpa [h, TerminalSet.subset_iff] using hs

theorem first_of_getElem? {n : Nonterminal} (h : f.sets[n.index]? = some s) : f.first n = s := by
  simp [first, h]

-- A constraint adds to the set of its upper symbol only.
theorem mem_first_impose (h : f.impose c = some f') :
    t ∈ f'.first x ↔ t ∈ f.first x ∨ x = c.upper ∧ t ∈ f.first c.lower := by
  obtain ⟨s, hs, _, rfl⟩ := impose_eq_some.mp h
  cases x
  case terminal u => simp [first]
  case nonterminal n =>
    by_cases hn : n = c.upper
    case pos =>
      obtain ⟨hl, _⟩ := List.getElem?_eq_some_iff.mp hs
      subst hn
      rw [first_of_getElem? hs]
      simp [first, List.getElem?_set_self hl]
    case neg =>
      have hi : c.upper.index ≠ n.index := fun he => hn (by cases n; cases hc : c.upper; simp_all)
      simp [first, List.getElem?_set_ne hi, hn]

theorem Bounded.impose {m n : Nat} (hf : f.Bounded m n) (h : f.impose c = some f') : f'.Bounded m n := by
  obtain ⟨s, hs, _, rfl⟩ := impose_eq_some.mp h
  refine ⟨hf.count, by rw [List.length_set, hf.length], fun u hu => ?_⟩
  obtain hu | rfl := List.mem_or_eq_of_mem_set hu
  · exact hf.sets u hu
  · exact (hf.sets s (List.mem_of_getElem? hs)).union hf.first

theorem totalBits_set {ss : List TerminalSet} {i : Nat} (hs : ss[i]? = some s) (hu : s.bits < u.bits) :
    Grammar.totalBits ss < Grammar.totalBits (ss.set i u) := by
  induction ss generalizing i
  case nil => contradiction
  case cons v ss hi =>
    cases i
    case zero =>
      cases hs
      exact Nat.add_lt_add_right hu _
    case succ i => exact Nat.add_lt_add_left (hi hs) _

theorem totalBits_impose (h : f.impose c = some f') :
    Grammar.totalBits f.sets < Grammar.totalBits f'.sets := by
  obtain ⟨s, hs, hn, rfl⟩ := impose_eq_some.mp h
  refine totalBits_set hs (Nat.lt_of_le_of_ne TerminalSet.bits_le_union fun he => hn ?_)
  rw [TerminalSet.subset_iff]
  intro t ht
  rw [TerminalSet.ext he]
  exact TerminalSet.mem_union.mpr (.inr ht)

-- What FIRST sets find for a body is what they find for one of its leading symbols.
theorem mem_sequence_iff_leading {α : List Symbol} : t ∈ (f.sequence α).terminals ↔
    ∃ x ∈ Grammar.leading f.nullable α, t ∈ f.first x := by
  induction α
  case nil => simp [sequence, Grammar.leading]
  case cons x α hi =>
    rw [mem_sequence_cons, hi, Grammar.leading]
    change _ ∨ x.vanishes f.nullable ∧ _ ↔ _
    split
    case isTrue hx => simp [hx]
    case isFalse hx => simp [hx]

end FirstSets

namespace Grammar

open Step

variable {known : List Nonterminal} {f f' : FirstSets} {c : Constraint} {t : Terminal} {x : Symbol}
variable {n : Nonterminal}

theorem leading_congr {known' : List Nonterminal} (h : ∀ n, n ∈ known ↔ n ∈ known') {α : List Symbol} :
    leading known α = leading known' α := by
  have hv (x : Symbol) : x.vanishes known = x.vanishes known' := by
    cases x <;> simp [Symbol.vanishes, h]
  induction α
  case nil => rfl
  case cons x α hi => rw [leading, leading, hv, hi]

theorem mem_constraints : c ∈ g.constraints known ↔ ∃ p ∈ g.productions,
    p.head = c.upper ∧ c.lower ∈ leading known p.body ∧ .nonterminal c.upper ≠ c.lower := by
  obtain ⟨n, x⟩ := c
  simp only [constraints, List.mem_flatMap, List.mem_map, List.mem_filter, decide_eq_true_eq,
    Constraint.mk.injEq]
  constructor
  case mp =>
    rintro ⟨p, hp, _, ⟨hx, hn⟩, rfl, rfl⟩
    exact ⟨p, hp, rfl, hx, hn⟩
  case mpr =>
    rintro ⟨p, hp, rfl, hx, hn⟩
    exact ⟨p, hp, x, ⟨hx, hn⟩, rfl, rfl⟩

-- What propagation keeps: nothing but the sets changes, and they find what the rounds find at most.
structure Propagated (g : Grammar V) (known : List Nonterminal) (f : FirstSets) : Prop where
  bounded : f.Bounded g.terminals.length g.nonterminals.length
  nullable : f.nullable = known
  first : ∀ x : Symbol, ∀ t ∈ f.first x, t ∈ g.firstSets.first x

theorem first_propagationStart : (g.propagationStart known).first x = g.firstStart.first x := by
  cases x <;> rfl

theorem first_start_terminal {u : Terminal} : g.firstStart.first u = g.firstSets.first u := by
  rw [FirstSets.first, FirstSets.first, firstSets_fixed.right]
  rfl

theorem not_mem_first_start_nonterminal : t ∉ g.firstStart.first n := by
  simp only [FirstSets.first, firstStart, List.getElem?_replicate]
  split <;> exact TerminalSet.not_mem_empty

theorem Propagated.start : Propagated g known (g.propagationStart known) where
  bounded := ⟨firstStart_bounded.count, firstStart_bounded.length, firstStart_bounded.sets⟩
  nullable := rfl
  first x t ht := by
    rw [first_propagationStart] at ht
    cases x
    case terminal => exact first_start_terminal ▸ ht
    case nonterminal => exact absurd ht not_mem_first_start_nonterminal

-- The FIRST sets satisfy all constraints.
theorem mem_first_of_constraint (hk : ∀ n, n ∈ known ↔ n ∈ g.nullable) (hc : c ∈ g.constraints known)
    (hd : g.Declares c.upper) (ht : t ∈ g.firstSets.first c.lower) : t ∈ g.firstSets.first c.upper := by
  have ⟨p, hp, hh, hx, _⟩ := mem_constraints.mp hc
  rw [leading_congr hk, ← firstSets_fixed.left] at hx
  rw [← firstRound_firstSets, first_firstRound, if_pos hd, mem_beginnings]
  exact .inr ⟨p, mem_productionsOf.mpr ⟨hp, hh⟩, FirstSets.mem_sequence_iff_leading.mpr ⟨_, hx, ht⟩⟩

theorem Propagated.keep (hk : ∀ n, n ∈ known ↔ n ∈ g.nullable) (hf : Propagated g known f)
    (h : Changes FirstSets.impose (g.constraints known) f f') : Propagated g known f' := by
  obtain ⟨c, hc, hi⟩ := h
  refine ⟨hf.bounded.impose hi, ?nullable, fun x t ht => ?first⟩
  case nullable =>
    obtain ⟨_, _, _, rfl⟩ := FirstSets.impose_eq_some.mp hi
    exact hf.nullable
  case first =>
    obtain hx | ⟨rfl, hl⟩ := (FirstSets.mem_first_impose hi).mp ht
    · exact hf.first x t hx
    · obtain ⟨s, hs, _, _⟩ := FirstSets.impose_eq_some.mp hi
      have hd : c.upper.index < g.nonterminals.length :=
        hf.bounded.length ▸ (List.getElem?_eq_some_iff.mp hs).fst
      exact mem_first_of_constraint hk hc hd (hf.first _ t hl)

theorem impose_halts (hk : ∀ n, n ∈ known ↔ n ∈ g.nullable) :
    Halts (pass FirstSets.impose (g.constraints known)) (g.firstLimit + 1) (g.propagationStart known) := by
  have hle f (hf : Propagated g known f) : totalBits f.sets ≤ g.firstLimit := by
    have := totalBits_le hf.bounded.sets
    rwa [hf.bounded.length] at this
  refine .of_run <| run_pass_isSome (P := Propagated g known) (m := fun f => totalBits f.sets)
    (fun _ _ => Propagated.keep hk) ?_ hle .start (Nat.lt_succ_self _)
  exact fun _ _ _ ⟨_, _, hi⟩ => FirstSets.totalBits_impose hi

-- Sets that satisfy all constraints find whatever a round finds.
theorem mem_first_of_round (hk : ∀ n, n ∈ known ↔ n ∈ g.nullable) (hf : Propagated g known f)
    (hs : ∀ c ∈ g.constraints known, f.impose c = none) (hn : f'.nullable = g.nullable)
    (hle : ∀ x : Symbol, ∀ t ∈ f'.first x, t ∈ f.first x) (ht : t ∈ (g.firstRound f').first n) :
    t ∈ f.first n := by
  rw [first_firstRound] at ht
  split at ht
  case isFalse => exact absurd ht TerminalSet.not_mem_empty
  case isTrue hd =>
    obtain hb | ⟨p, hp, hb⟩ := mem_beginnings.mp ht
    · exact hle n t hb
    · obtain ⟨hm, rfl⟩ := mem_productionsOf.mp hp
      obtain ⟨x, hx, hxt⟩ := FirstSets.mem_sequence_iff_leading.mp hb
      by_cases he : Symbol.nonterminal p.head = x
      case pos => exact he ▸ hle x t hxt
      case neg =>
        rw [hn, ← leading_congr hk] at hx
        have hc : ⟨p.head, x⟩ ∈ g.constraints known := mem_constraints.mpr ⟨p, hm, rfl, hx, he⟩
        have hl : p.head.index < f.sets.length := hf.bounded.length ▸ hd
        have hget := List.getElem?_eq_getElem hl
        rw [FirstSets.first_of_getElem? hget]
        exact FirstSets.impose_eq_none.mp (hs _ hc) _ hget t (hle x t hxt)

theorem mem_first_propagated (hk : ∀ n, n ∈ known ↔ n ∈ g.nullable) {limit : Nat}
    (h : run (pass FirstSets.impose (g.constraints known)) limit (g.propagationStart known) = some f) :
    t ∈ f.first x ↔ t ∈ g.firstSets.first x := by
  obtain ⟨hf, hs⟩ := run_pass_stable (fun _ _ => Propagated.keep hk) .start h
  refine ⟨hf.first x t, fun ht => ?_⟩
  suffices hle : g.firstSets.nullable = g.nullable ∧ g.firstSets.terminalCount = g.terminals.length ∧
      ∀ x : Symbol, ∀ t ∈ g.firstSets.first x, t ∈ f.first x from hle.right.right x t ht
  have terminal (f' : FirstSets) {u : Terminal} (hc : f'.terminalCount = g.terminals.length) :
      f'.first u = f.first u := by
    rw [FirstSets.first, FirstSets.first, hc, hf.bounded.count]
  refine run_stabilize_invariant (f := g.firstRound) (a := g.firstStart)
    (P := fun f' => f'.nullable = g.nullable ∧ f'.terminalCount = g.terminals.length ∧
      ∀ x : Symbol, ∀ t ∈ f'.first x, t ∈ f.first x) ?keep ⟨rfl, rfl, ?start⟩ (Option.some_get _).symm
  case keep =>
    rintro f' ⟨hn, hc, hle⟩
    refine ⟨hn, hc, fun x t ht => ?_⟩
    cases x
    case terminal => exact terminal (g.firstRound f') hc ▸ ht
    case nonterminal => exact mem_first_of_round hk hf hs hn hle ht
  case start =>
    intro x t ht
    cases x
    case terminal => exact terminal g.firstStart rfl ▸ ht
    case nonterminal => exact absurd ht not_mem_first_start_nonterminal

-- What propagation ends with is what the rounds end with.

section Propagated

variable {limit : Nat} (hk : ∀ n, n ∈ known ↔ n ∈ g.nullable)
variable (h : run (pass FirstSets.impose (g.constraints known)) limit (g.propagationStart known) = some f)
include hk h

theorem first_propagated : f.first x = g.firstSets.first x :=
  TerminalSet.ext_mem fun _ => mem_first_propagated hk h

theorem isNullable_propagated : f.isNullable x = g.firstSets.isNullable x := by
  have hf := (run_pass_stable (fun _ _ => Propagated.keep hk) .start h).left
  rw [FirstSets.isNullable, FirstSets.isNullable, hf.nullable, firstSets_fixed.left]
  cases x <;> simp [Symbol.vanishes, hk]

theorem sequence_propagated (α : List Symbol) : f.sequence α = g.firstSets.sequence α := by
  induction α
  case nil => rfl
  case cons x α hi =>
    rw [FirstSets.sequence, FirstSets.sequence, first_propagated hk h, isNullable_propagated hk h, hi]

end Propagated

theorem exists_propagated (g : Grammar V) : ∃ known f,
    run (pass discover g.productions) (g.productions.length + 1) g.emptyHeads = some known ∧
      run (pass FirstSets.impose (g.constraints known)) (g.firstLimit + 1) (g.propagationStart known) =
        some f := by
  have ⟨known, hknown⟩ := (discover_halts g).ends
  have ⟨f, hf⟩ := (impose_halts fun _ => mem_discovered hknown).ends
  exact ⟨known, f, hknown, hf⟩

end Grammar
end CanonicalLR
