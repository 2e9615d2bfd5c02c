import CanonicalLR.Proofs.Closure
import Mathlib.Data.List.Perm.Subperm

namespace CanonicalLR

variable {V : Type} {g : Grammar V} {f : FirstSets}

theorem TerminalSet.bits_le_of_subset {s₁ s₂ : TerminalSet} (h : ∀ t, t ∈ s₁ → t ∈ s₂) :
    s₁.bits ≤ s₂.bits := by
  have h := subset_iff.mpr h
  simp only [subset, beq_iff_eq] at h
  exact h ▸ Nat.left_le_or

-- FIRST sets hold declared terminals only.
theorem Grammar.bounded_firstSets : g.firstSets.Bounded g.terminals.length g.nonterminals.length :=
  Step.run_stabilize_invariant (f := g.firstRound) (a := g.firstStart)
    (P := fun f => f.Bounded g.terminals.length g.nonterminals.length)
    (fun _ => firstRound_bounded) firstStart_bounded (Option.some_get _).symm

namespace Item

variable {given : List Item} {i : Item} {t : Terminal}

theorem mem_foldl_lookaheads {is : List Item} {s : TerminalSet} :
    t ∈ is.foldl (· ∪ ·.lookaheads) s ↔ t ∈ s ∨ ∃ i ∈ is, t ∈ i.lookaheads := by
  induction is generalizing s
  case nil => simp
  case cons i is hi => simp [hi, or_assoc]

-- Whatever is a lookahead of an item that can be found.
def alphabet (g : Grammar V) (given : List Item) : TerminalSet :=
  given.foldl (· ∪ ·.lookaheads) (.ofList g.terminalIds)

theorem mem_alphabet_iff : t ∈ alphabet g given ↔ t ∈ g.terminalIds ∨ ∃ i ∈ given, t ∈ i.lookaheads := by
  rw [alphabet, mem_foldl_lookaheads, TerminalSet.mem_ofList]

-- All items that can be found, and possibly others.
def candidates (g : Grammar V) (given : List Item) : List Item :=
  given ++ g.productions.flatMap fun p =>
    (List.range ((alphabet g given).bits + 1)).map fun bits => ⟨⟨p.id, 0⟩, ⟨bits⟩⟩

theorem length_candidates : (candidates g given).length + 1 = Worklist.limit g given := by
  simp [candidates, Worklist.limit, alphabet, List.length_flatMap]

theorem Found.mem_alphabet (hf : f.Bounded g.terminals.length g.nonterminals.length)
    (h : i.Found g f given) (ht : t ∈ i.lookaheads) : t ∈ alphabet g given := by
  rw [mem_alphabet_iff]
  induction h generalizing t
  case given i hi => exact .inr ⟨i, hi, ht⟩
  case predicted he hj ih =>
    obtain ⟨_, _, _, _, rfl⟩ := (mem_expand he).mp hj
    cases FirstSets.mem_localFirst.mp ht
    case inl ht => exact .inl (by simpa using hf.sequence t ht)
    case inr ht => exact ih ht.right

theorem Found.mem_candidates (hf : f.Bounded g.terminals.length g.nonterminals.length)
    (h : i.Found g f given) : i ∈ candidates g given := by
  have hbits := TerminalSet.bits_le_of_subset fun t => h.mem_alphabet hf (t := t)
  cases h
  case given hi => exact List.mem_append_left _ hi
  case predicted he hj =>
    obtain ⟨_, _, p, hp, rfl⟩ := (mem_expand he).mp hj
    refine List.mem_append_right _ (List.mem_flatMap.mpr ⟨p, (Grammar.mem_productionsOf.mp hp).left, ?_⟩)
    exact List.mem_map.mpr ⟨_, List.mem_range.mpr (Nat.lt_succ_of_le hbits), rfl⟩

end Item

namespace Worklist

variable {w w' : Worklist} {i : Item} {is given : List Item}

-- No item is there twice.
def Distinct (w : Worklist) : Prop := (w.expanded ++ w.pending).Nodup

theorem Distinct.add (h : w.Distinct) : (w.add i).Distinct := by
  simp only [Worklist.add]
  split
  case isTrue => exact h
  case isFalse hn =>
    rw [Distinct, ← List.append_assoc, List.nodup_append]
    refine ⟨h, by simp, fun j hj k hk he => hn ?_⟩
    rw [List.mem_singleton.mp hk] at he
    exact (List.mem_append.mp (he ▸ hj)).symm

theorem Distinct.foldl_add (h : w.Distinct) : (is.foldl Worklist.add w).Distinct := by
  induction is generalizing w
  case nil => exact h
  case cons i is hi => exact hi h.add

theorem Distinct.step (hw : w.Distinct) (h : Worklist.step g f w = .next w') : w'.Distinct := by
  obtain ⟨i, pending, is, hp, _, rfl⟩ := step_eq_next h
  refine foldl_add ?_
  rw [Distinct, hp, List.perm_middle.nodup_iff] at hw
  exact hw

theorem Distinct.length_le (hd : w.Distinct) (hf : f.Bounded g.terminals.length g.nonterminals.length)
    (hw : Invariant g f given w) :
    w.expanded.length + w.pending.length ≤ (Item.candidates g given).length := by
  rw [← List.length_append]
  refine (List.subperm_of_subset hd fun i hi => ?_).length_le
  exact (hw.found i (List.mem_append.mp hi).symm).mem_candidates hf

-- Every step expands one more item.
theorem run_isSome (hf : f.Bounded g.terminals.length g.nonterminals.length) (hg : given.Nodup) :
    (Step.run (step g f) (limit g given) ⟨[], given⟩).isSome := by
  refine Step.run_isSome (P := fun w => Invariant g f given w ∧ w.Distinct)
    (m := fun w => (Item.candidates g given).length - w.expanded.length)
    (fun _ _ hw h => ⟨hw.left.step h, hw.right.step h⟩) ?decrease ⟨.initial, hg⟩ ?limit
  case decrease =>
    intro w w' ⟨hw, hd⟩ h
    have hl := hd.length_le hf hw
    obtain ⟨i, pending, is, hp, _, rfl⟩ := step_eq_next h
    rw [hp, List.length_cons] at hl
    rw [expanded_foldl_add, List.length_cons]
    omega
  case limit =>
    rw [← Item.length_candidates, List.length_nil]
    omega

end Worklist

namespace ItemSet

variable {s s' : ItemSet}

theorem nodup_items : s.items.Nodup := by
  refine s.sorted.imp ?_
  rintro i _ h rfl
  exact Center.Before.irrefl h

-- A closure that fails has found an item that cannot be expanded.
theorem exists_closure (hf : f.Bounded g.terminals.length g.nonterminals.length)
    (h : ∀ i : Item, i.Found g f s.items → ∃ is, i.expand g f = .ok is) :
    ∃ s', s.closure g f = .ok s' := by
  obtain ⟨r, hr⟩ := Option.isSome_iff_exists.mp (Worklist.run_isSome hf s.nodup_items)
  cases r
  case ok is => exact ⟨ofList is, by simp only [closure, hr]⟩
  case error e =>
    obtain ⟨_, w, _, hw, hd⟩ := Step.reaches_of_run hr
    have hw := hw.invariant (P := Worklist.Invariant g f s.items) (fun _ _ => .step) .initial
    obtain ⟨i, hi, he⟩ := Worklist.step_eq_error hd
    obtain ⟨is, his⟩ := h i (hw.found i hi)
    cases his.symm.trans he

end ItemSet
end CanonicalLR
