import CanonicalLR.Automaton.Compression
import CanonicalLR.Proofs.LeastClosure
import CanonicalLR.Proofs.Soundness

namespace CanonicalLR

variable {V : Type} {g : Grammar V} {x : Symbol} {c : Center} {t : Terminal}

theorem TerminalSet.empty_union {s : TerminalSet} : ∅ ∪ s = s := TerminalSet.ext_mem fun t => by simp

theorem TerminalSet.toList_inj {s₁ s₂ : TerminalSet} (h : s₁.toList = s₂.toList) : s₁ = s₂ :=
  TerminalSet.ext_mem fun t => by rw [← mem_toList, h, mem_toList]

theorem Center.Before.advance {c₁ c₂ : Center} (h₁ : c₁.position.toNat + 1 < UInt16.size)
    (h₂ : c₂.position.toNat + 1 < UInt16.size) (h : c₁.Before c₂) : c₁.advance.Before c₂.advance := by
  refine h.imp_right <| And.imp_right fun hlt => ?_
  rw [position_advance h₁, position_advance h₂]
  exact Nat.succ_lt_succ hlt

namespace Item

variable {i : Item} {is js : List Item}

-- All lookaheads of a center.
def lookaheadsOf (is : List Item) (c : Center) : TerminalSet :=
  (is.filter (·.center = c)).foldl (· ∪ ·.lookaheads) ∅

-- The same centers, with the same lookaheads altogether.
structure Agree (is js : List Item) : Prop where
  centers : ∀ c, (∃ i ∈ is, i.center = c) ↔ ∃ j ∈ js, j.center = c
  lookaheads : ∀ c, lookaheadsOf is c = lookaheadsOf js c

theorem mem_lookaheadsOf : t ∈ lookaheadsOf is c ↔ ∃ i ∈ is, i.center = c ∧ t ∈ i.lookaheads := by
  simp [lookaheadsOf, mem_foldl_lookaheads, and_assoc]

-- What is true of a union if it is true of a part is true of an entry if it is true of an item.

section

variable {P : TerminalSet → Prop} (hP : ∀ l l', P (l ∪ l') ↔ P l ∨ P l')

include hP

theorem exists_enter : (∃ k ∈ i.enter js, k.center = c ∧ P k.lookaheads) ↔
    i.center = c ∧ P i.lookaheads ∨ ∃ j ∈ js, j.center = c ∧ P j.lookaheads := by
  induction js
  case nil => simp [enter, TerminalSet.empty_union]
  case cons j js hi =>
    simp only [enter]
    split
    case isTrue h => simp [h, hP, and_or_left, or_left_comm, or_assoc]
    case isFalse => simp only [List.mem_cons, exists_eq_or_imp, hi, or_left_comm]

theorem exists_foldl_enter : (∃ k ∈ is.foldl (fun js i => i.enter js) js, k.center = c ∧ P k.lookaheads) ↔
    (∃ i ∈ is, i.center = c ∧ P i.lookaheads) ∨ ∃ j ∈ js, j.center = c ∧ P j.lookaheads := by
  induction is generalizing js
  case nil => simp
  case cons i is hi =>
    simp only [List.foldl_cons, hi, exists_enter hP, List.mem_cons, exists_eq_or_imp, or_left_comm, or_assoc]

theorem exists_compress : (∃ k ∈ compress is, k.center = c ∧ P k.lookaheads) ↔
    ∃ i ∈ is, i.center = c ∧ P i.lookaheads := by
  simp only [compress, List.mem_mergeSort, exists_foldl_enter hP, List.not_mem_nil, false_and, exists_false,
    or_false]

end

theorem exists_center_compress : (∃ k ∈ compress is, k.center = c) ↔ ∃ i ∈ is, i.center = c := by
  simpa using exists_compress (P := fun _ => True) (by simp)

theorem exists_lookahead_compress :
    (∃ k ∈ compress is, k.center = c ∧ t ∈ k.lookaheads) ↔ ∃ i ∈ is, i.center = c ∧ t ∈ i.lookaheads :=
  exists_compress (P := (t ∈ ·)) fun _ _ => TerminalSet.mem_union

-- No center is entered twice.

theorem distinct_enter (h : js.Pairwise (·.center ≠ ·.center)) :
    (i.enter js).Pairwise (·.center ≠ ·.center) := by
  induction h
  case nil => simp [enter]
  case cons j js hj hs hi =>
    simp only [enter]
    split
    case isTrue => exact .cons hj hs
    case isFalse hn =>
      refine .cons (fun k hk he => ?_) hi
      have hk : ∃ k ∈ i.enter js, k.center = j.center ∧ True := ⟨k, hk, he.symm, trivial⟩
      obtain ⟨hc, _⟩ | ⟨l, hl, hc, _⟩ := (exists_enter (P := fun _ => True) (by simp)).mp hk
      · exact hn hc
      · exact hj l hl hc.symm

theorem distinct_foldl_enter (h : js.Pairwise (·.center ≠ ·.center)) :
    (is.foldl (fun js i => i.enter js) js).Pairwise (·.center ≠ ·.center) := by
  induction is generalizing js
  case nil => exact h
  case cons i is hi => exact hi (distinct_enter h)

theorem sorted_compress : (compress is).Pairwise (·.center.Before ·.center) := by
  have hd : (compress is).Pairwise (·.center ≠ ·.center) :=
    ((List.mergeSort_perm ..).pairwise_iff Ne.symm).mpr (distinct_foldl_enter .nil)
  have hs : (compress is).Pairwise fun i j => ¬ j.center.Before i.center := by
    refine (List.pairwise_mergeSort ?trans ?total _).imp of_decide_eq_true
    case trans =>
      intro i j k hij hjk
      rw [decide_eq_true_eq] at hij hjk ⊢
      unfold Center.Before at *
      omega
    case total =>
      intro i j
      rw [Bool.or_eq_true, decide_eq_true_eq, decide_eq_true_eq]
      unfold Center.Before
      omega
  exact (hd.and hs).imp fun ⟨hn, hb⟩ => Center.Before.total hn.symm hb

end Item

namespace ItemSet

open Item (compress lookaheadsOf Agree)

variable {s s' : ItemSet} {i : Item} {is js : List Item}

theorem eq_of_holds (hm : ∀ c, c ∈ s ↔ c ∈ s') (hh : ∀ c t, s.Holds c t ↔ s'.Holds c t) : s = s' :=
  Included.antisymm ⟨fun c => (hm c).mp, fun c t => (hh c t).mp⟩ ⟨fun c => (hm c).mpr, fun c t => (hh c t).mpr⟩

-- The map and the ordered list lead to the same items.
theorem items_ofList : (ofList is).items = compress is := by
  have : ofList is = ⟨compress is, Item.sorted_compress⟩ := eq_of_holds
    (fun _ => mem_ofList.trans Item.exists_center_compress.symm)
    (fun _ _ => holds_ofList.trans Item.exists_lookahead_compress.symm)
  rw [this]

-- Nothing happens to items that are in order.
theorem items_ofList_of_sorted (h : is.Pairwise (·.center.Before ·.center)) : (ofList is).items = is := by
  have : ofList is = ⟨is, h⟩ := eq_of_holds (fun _ => mem_ofList) (fun _ _ => holds_ofList)
  rw [this]

theorem lookaheads_eq (h : i ∈ (ofList is).items) : i.lookaheads = lookaheadsOf is i.center :=
  TerminalSet.ext_mem fun t => by rw [← holds_center h, holds_ofList, Item.mem_lookaheadsOf]

theorem ofList_eq_iff : ofList is = ofList js ↔ Agree is js := by
  constructor
  case mp =>
    intro h
    refine ⟨fun c => ?_, fun c => TerminalSet.ext_mem fun t => ?_⟩
    · rw [← mem_ofList, h, mem_ofList]
    · rw [Item.mem_lookaheadsOf, Item.mem_lookaheadsOf, ← holds_ofList, h, holds_ofList]
  case mpr =>
    intro h
    refine eq_of_holds (fun c => ?_) fun c t => ?_
    · rw [mem_ofList, mem_ofList, h.centers]
    · rw [holds_ofList, holds_ofList, ← Item.mem_lookaheadsOf, ← Item.mem_lookaheadsOf, h.lookaheads]

theorem items_inj (h : s.items = s'.items) : s = s' := by
  cases s
  cases s'
  cases h
  rfl

theorem key_inj (h : s.key = s'.key) : s = s' := by
  refine items_inj (List.map_inj_right ?_ |>.mp h)
  rintro ⟨⟨p, i⟩, l⟩ ⟨⟨q, j⟩, m⟩ he
  obtain ⟨rfl, rfl, hl⟩ := by simpa using he
  rw [TerminalSet.toList_inj hl]

-- Advancing changes the centers, but not their order, unless a marker goes back to the front.
theorem items_advance (hn : ∀ i ∈ s.items, i.next? g = some x → i.center.position.toNat + 1 < UInt16.size) :
    (s.advance g x).items = (s.items.filter fun i => i.next? g = some x).map Item.advance := by
  refine items_ofList_of_sorted (List.pairwise_map.mpr ?_)
  refine (s.sorted.filter _).imp_of_mem fun {i j} hi hj => ?_
  have ⟨hi, hx⟩ := List.mem_filter.mp hi
  have ⟨hj, hy⟩ := List.mem_filter.mp hj
  exact Center.Before.advance (hn i hi (of_decide_eq_true hx)) (hn j hj (of_decide_eq_true hy))

theorem compress_canonical (is : List Item) :
    ((ofList is).items = compress is ∧ (compress is).Pairwise (·.center.Before ·.center) ∧
      (∀ c, (∃ i ∈ compress is, i.center = c) ↔ ∃ i ∈ is, i.center = c) ∧
      ∀ i ∈ compress is, i.lookaheads = lookaheadsOf is i.center) ∧
    (∀ js, (ofList is = ofList js ↔ Agree is js) ∧ ((ofList is).key = (ofList js).key ↔ Agree is js)) ∧
    ∀ (s : ItemSet) (g : Grammar V) (x : Symbol),
      (∀ i ∈ s.items, i.next? g = some x → i.center.position.toNat + 1 < UInt16.size) →
      (s.advance g x).items = (s.items.filter fun i => i.next? g = some x).map Item.advance ∧
      ∀ i ∈ s.items, i.next? g = some x →
        i.advance.center.position.toNat = i.center.position.toNat + 1 := by
  refine ⟨⟨items_ofList, Item.sorted_compress, fun _ => Item.exists_center_compress, fun i hi => ?_⟩,
    fun js => ⟨ofList_eq_iff, ?_⟩, fun _ _ _ hn => ⟨items_advance hn, fun i hi hx => ?_⟩⟩
  · exact lookaheads_eq (items_ofList ▸ hi)
  · rw [← ofList_eq_iff]
    exact ⟨key_inj, fun h => h ▸ rfl⟩
  · exact Center.position_advance (hn i hi hx)

end ItemSet

namespace Example.DanglingElse

-- Before both kinds of `IF`. The second one has been found with two lookaheads, one by one.
def beginnings : List Item := [
  ⟨⟨⟨2⟩, 0⟩, .singleton elseKeyword⟩, ⟨⟨⟨1⟩, 0⟩, .singleton .eof⟩, ⟨⟨⟨2⟩, 0⟩, .singleton .eof⟩]

end Example.DanglingElse

open Example.DanglingElse in
theorem ItemSet.compress_canonical_danglingElse :
    Item.compress beginnings =
      [⟨⟨⟨1⟩, 0⟩, .singleton .eof⟩, ⟨⟨⟨2⟩, 0⟩, .ofList [.eof, elseKeyword]⟩] ∧
    ((ofList beginnings).advance grammar ifKeyword).items =
      [⟨⟨⟨1⟩, 1⟩, .singleton .eof⟩, ⟨⟨⟨2⟩, 1⟩, .ofList [.eof, elseKeyword]⟩] := by
  have ⟨⟨hitems, _⟩, _, hadvance⟩ := compress_canonical (V := Example.Ast) beginnings
  have hn : ∀ i ∈ (ofList beginnings).items, i.next? grammar = some ifKeyword →
      i.center.position.toNat + 1 < UInt16.size := by
    decide
  exact ⟨hitems.symm.trans (by rfl), (hadvance _ _ _ hn).left.trans (by rfl)⟩

end CanonicalLR
