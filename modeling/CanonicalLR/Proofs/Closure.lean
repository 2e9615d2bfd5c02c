import CanonicalLR.Proofs.First
import CanonicalLR.Proofs.Item
import CanonicalLR.Proofs.Run

namespace CanonicalLR

variable {V : Type} {g : Grammar V} {f : FirstSets}

namespace Item

variable {i j : Item} {is : List Item}

theorem expand_eq_ok : (∃ is, i.expand g f = .ok is) ↔
    ∀ n, i.next? g = some (.nonterminal n) →
      ¬ (f.localFirst (i.center.rest g) i.lookaheads).epsilon := by
  simp only [expand]
  split
  case h_1 n hn =>
    split
    case isTrue he => simp [hn, he]
    case isFalse he => simp [hn, he]
  case h_2 hn => exact ⟨fun _ n h => absurd h (hn n), fun _ => ⟨[], rfl⟩⟩

theorem mem_expand (h : i.expand g f = .ok is) :
    j ∈ is ↔ ∃ n, i.next? g = some (.nonterminal n) ∧ ∃ p ∈ g.productionsOf n,
      j = ⟨⟨p.id, 0⟩, (f.localFirst (i.center.rest g) i.lookaheads).terminals⟩ := by
  simp only [expand] at h
  split at h
  case h_1 n hn =>
    split at h <;> cases h
    simp [hn, eq_comm]
  case h_2 hn =>
    cases h
    simp only [List.not_mem_nil, false_iff]
    intro ⟨n, h, _⟩
    exact hn n h

-- The items that are found from given ones.
inductive Found (g : Grammar V) (f : FirstSets) (given : List Item) : Item → Prop
  | given {i : Item} (mem : i ∈ given) : Found g f given i
  | predicted {i j : Item} {is : List Item} (rec : Found g f given i) (expand : i.expand g f = .ok is)
    (mem : j ∈ is) : Found g f given j

end Item

namespace Worklist

instance : Membership Item Worklist where
  mem w i := i ∈ w.pending ∨ i ∈ w.expanded

variable {w w' : Worklist} {i j : Item} {is given : List Item}

theorem mem_def : i ∈ w ↔ i ∈ w.pending ∨ i ∈ w.expanded := Iff.rfl

@[simp]
theorem expanded_add : (w.add i).expanded = w.expanded := by
  simp only [add]
  split <;> rfl

@[simp]
theorem mem_add : j ∈ w.add i ↔ j = i ∨ j ∈ w := by
  simp only [add]
  split
  case isTrue h => exact ⟨.inr, fun hj => hj.elim (· ▸ h) id⟩
  case isFalse => simp [mem_def, or_comm, or_left_comm]

@[simp]
theorem expanded_foldl_add : (is.foldl add w).expanded = w.expanded := by
  induction is generalizing w <;> simp_all

@[simp]
theorem mem_foldl_add : j ∈ is.foldl add w ↔ j ∈ is ∨ j ∈ w := by
  induction is generalizing w <;> simp_all [or_left_comm, or_assoc]

-- What a step does to the first item that is pending, if there is one.

theorem step_eq_next (h : step g f w = .next w') :
    ∃ i pending is, w.pending = i :: pending ∧ i.expand g f = .ok is ∧
      w' = is.foldl Worklist.add ⟨i :: w.expanded, pending⟩ := by
  simp only [step] at h
  split at h
  case h_1 => contradiction
  case h_2 i pending hp =>
    split at h <;> cases h
    exact ⟨i, pending, _, hp, ‹_›, rfl⟩

theorem step_eq_ok (h : step g f w = .done (.ok is)) : w.pending = [] ∧ is = w.expanded := by
  simp only [step] at h
  split at h
  case h_1 hp =>
    cases h
    exact ⟨hp, rfl⟩
  case h_2 => split at h <;> cases h

theorem step_eq_error {e : AutomatonError} (h : step g f w = .done (.error e)) :
    ∃ i ∈ w, i.expand g f = .error e := by
  simp only [step] at h
  split at h
  case h_1 => cases h
  case h_2 i pending hp =>
    split at h <;> cases h
    exact ⟨i, .inl (by simp [hp]), ‹_›⟩

-- What holds of a worklist at all times: nothing is lost, and nothing is made up.
structure Invariant (g : Grammar V) (f : FirstSets) (given : List Item) (w : Worklist) : Prop where
  found : ∀ i ∈ w, i.Found g f given
  given : ∀ i ∈ given, i ∈ w
  closed : ∀ i ∈ w.expanded, ∃ is, i.expand g f = .ok is ∧ ∀ j ∈ is, j ∈ w

namespace Invariant

theorem initial : Invariant g f given ⟨[], given⟩ where
  found i hi := by
    cases hi
    case inl hi => exact .given hi
    case inr hi => contradiction
  given _ hi := .inl hi
  closed i hi := by contradiction

theorem step (hw : Invariant g f given w) (h : step g f w = .next w') : Invariant g f given w' := by
  obtain ⟨i, pending, is, hp, hi, rfl⟩ := step_eq_next h
  -- The item moves from one list to the other, and the items that it predicts are added.
  have mem_iff j : j ∈ is.foldl add ⟨i :: w.expanded, pending⟩ ↔ j ∈ is ∨ j ∈ w := by
    rw [mem_foldl_add]
    simp [mem_def, hp, or_left_comm, or_assoc]
  have hiw : i ∈ w := .inl (by simp [hp])
  refine { found := ?found, given := ?given, closed := ?closed }
  case found =>
    intro j hj
    cases (mem_iff j).mp hj
    case inl hj => exact .predicted (hw.found i hiw) hi hj
    case inr hj => exact hw.found j hj
  case given => exact fun j hj => (mem_iff j).mpr (.inr (hw.given j hj))
  case closed =>
    intro j hj
    simp only [expanded_foldl_add, List.mem_cons] at hj
    cases hj
    case inl hj =>
      subst hj
      exact ⟨is, hi, fun k hk => (mem_iff k).mpr (.inl hk)⟩
    case inr hj =>
      have ⟨js, hjs, hm⟩ := hw.closed j hj
      exact ⟨js, hjs, fun k hk => (mem_iff k).mpr (.inr (hm k hk))⟩

-- Once nothing is pending, what has been expanded is what can be found.
theorem done (hw : Invariant g f given w) (h : Worklist.step g f w = .done (.ok is)) :
    (∀ i, i ∈ is ↔ i.Found g f given) ∧ ∀ i ∈ is, ∃ js, i.expand g f = .ok js := by
  obtain ⟨hp, rfl⟩ := step_eq_ok h
  have mem_iff i : i ∈ w ↔ i ∈ w.expanded := by simp [mem_def, hp]
  refine ⟨fun i => ⟨fun hi => hw.found i (.inr hi), fun hi => ?_⟩, ?_⟩
  · induction hi
    case given hi => exact (mem_iff _).mp (hw.given _ hi)
    case predicted hi hj ih =>
      have ⟨js, hjs, hm⟩ := hw.closed _ ih
      rw [hi] at hjs
      cases hjs
      exact (mem_iff _).mp (hm _ hj)
  · intro i hi
    have ⟨js, hjs, _⟩ := hw.closed i hi
    exact ⟨js, hjs⟩

end Invariant
end Worklist

namespace ItemSet

variable {s s' : ItemSet} {c : Center} {t : Terminal}

-- The second set holds exactly what can be found from the first one.
structure Closure (g : Grammar V) (f : FirstSets) (s s' : ItemSet) : Prop where
  mem : ∀ c : Center, c ∈ s' ↔ ∃ i : Item, i.Found g f s.items ∧ i.center = c
  holds : ∀ c t, s'.Holds c t ↔ ∃ i : Item, i.Found g f s.items ∧ i.center = c ∧ t ∈ i.lookaheads
  expand : ∀ i : Item, i.Found g f s.items → ∃ is, i.expand g f = .ok is

theorem closure_spec (h : s.closure g f = .ok s') : Closure g f s s' := by
  simp only [closure] at h
  split at h
  case h_1 is hr =>
    cases h
    have ⟨_, w, _, hw, hd⟩ := Step.reaches_of_run hr
    have hw := hw.invariant (P := Worklist.Invariant g f s.items) (fun _ _ => .step) .initial
    have ⟨mem_iff, expand⟩ := hw.done hd
    refine { mem := ?mem, holds := ?holds, expand := ?expand }
    case mem =>
      intro c
      simp [mem_ofList, mem_iff]
    case holds =>
      intro c t
      simp [holds_ofList, mem_iff]
    case expand => exact fun i hi => expand i ((mem_iff i).mpr hi)
  case h_2 => cases h
  case h_3 => cases h

namespace Closure

variable {n : Nonterminal} {p : Production V} {u : Terminal}

theorem given (h : Closure g f s s') (hc : c ∈ s) : c ∈ s' := by
  obtain ⟨i, hi, rfl⟩ := hc
  exact (h.mem _).mpr ⟨i, .given hi, rfl⟩

theorem given_holds (h : Closure g f s s') (hc : s.Holds c t) : s'.Holds c t := by
  obtain ⟨i, hi, rfl, ht⟩ := hc
  exact (h.holds ..).mpr ⟨i, .given hi, rfl, ht⟩

theorem predicted (h : Closure g f s s') (hc : c ∈ s') (hn : c.next? g = some (.nonterminal n))
    (hp : p ∈ g.productionsOf n) : (⟨p.id, 0⟩ : Center) ∈ s' := by
  obtain ⟨i, hi, rfl⟩ := (h.mem _).mp hc
  have ⟨is, he⟩ := h.expand i hi
  exact (h.mem _).mpr ⟨_, .predicted hi he ((Item.mem_expand he).mpr ⟨n, hn, p, hp, rfl⟩), rfl⟩

-- What begins the rest of a body follows what is predicted, even if nothing follows the body.
theorem predicted_first (h : Closure g f s s') (hc : c ∈ s') (hn : c.next? g = some (.nonterminal n))
    (hp : p ∈ g.productionsOf n) (hu : u ∈ (f.sequence (c.rest g)).terminals) :
    s'.Holds ⟨p.id, 0⟩ u := by
  obtain ⟨i, hi, rfl⟩ := (h.mem _).mp hc
  have ⟨is, he⟩ := h.expand i hi
  exact (h.holds ..).mpr ⟨_, .predicted hi he ((Item.mem_expand he).mpr ⟨n, hn, p, hp, rfl⟩), rfl,
    FirstSets.mem_localFirst.mpr (.inl hu)⟩

-- What begins the rest of a body, or follows the body if the rest vanishes, follows what is predicted.
theorem predicted_holds (h : Closure g f s s') (hc : s'.Holds c t)
    (hn : c.next? g = some (.nonterminal n)) (hp : p ∈ g.productionsOf n)
    (hu : u ∈ (f.sequence (c.rest g)).terminals ∨ (f.sequence (c.rest g)).epsilon ∧ u = t) :
    s'.Holds ⟨p.id, 0⟩ u := by
  obtain ⟨i, hi, rfl, ht⟩ := (h.holds ..).mp hc
  have ⟨is, he⟩ := h.expand i hi
  refine (h.holds ..).mpr
    ⟨_, .predicted hi he ((Item.mem_expand he).mpr ⟨n, hn, p, hp, rfl⟩), rfl, ?_⟩
  exact FirstSets.mem_localFirst.mpr (hu.imp_right fun ⟨he, hu⟩ => ⟨he, hu ▸ ht⟩)

-- A center has been given, or it is the beginning of a body that another center predicts.
theorem cases (h : Closure g f s s') (hc : c ∈ s') :
    c ∈ s ∨ ∃ b ∈ s', ∃ p ∈ g.productions, b.next? g = some (.nonterminal p.head) ∧ c = ⟨p.id, 0⟩ := by
  obtain ⟨i, hi, rfl⟩ := (h.mem _).mp hc
  cases hi
  case given hi => exact .inl ⟨i, hi, rfl⟩
  case predicted j is hj he hi =>
    obtain ⟨n, hn, p, hp, rfl⟩ := (Item.mem_expand he).mp hi
    obtain ⟨hm, rfl⟩ := Grammar.mem_productionsOf.mp hp
    exact .inr ⟨j.center, (h.mem _).mpr ⟨j, hj, rfl⟩, p, hm, hn, rfl⟩

end Closure
end ItemSet
end CanonicalLR
