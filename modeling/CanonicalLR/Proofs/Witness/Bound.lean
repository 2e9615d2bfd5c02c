import CanonicalLR.Proofs.Witness.Soundness

namespace CanonicalLR

namespace Witness

variable {t : Table} {cell : StateId × Terminal} {alphabet xs word : List Terminal}
variable {trail : Trail} {trails old : List Trail} {level l : Level} {visited : List (StateId × Nat)}
variable {length m n : Nat}

theorem Finds.length_eq {x : Terminal} (h : Finds t cell trail x word) (ht : trail.Sound t alphabet length) :
    word.length = length + 1 := by
  rw [h.left, List.length_reverse, List.length_cons, ht.length]

theorem length_of_extendAll (ht : ∀ trail ∈ trails, trail.Sound t alphabet length)
    (h : extendAll t cell alphabet trails level = .done word) : word.length = length + 1 := by
  obtain ⟨p, hp, hf⟩ := finds_of_extendAll h
  exact hf.length_eq (ht p.1 (List.mem_product.mp hp).left)

theorem lt_length_of_search (ht : ∀ trail ∈ trails, trail.Sound t alphabet length)
    (h : search t cell alphabet n visited trails = some word) : length < word.length := by
  fun_induction search t cell alphabet n visited trails generalizing length
  case case1 => contradiction
  case case2 => contradiction
  case case3 hd =>
    cases h
    rw [length_of_extendAll ht hd]
    exact Nat.lt_succ_self length
  case case4 hn hi => exact Nat.lt_of_succ_lt (hi (sound_of_extendAll ht hn) h)

theorem search_eq_some_iff (ht : ∀ trail ∈ trails, trail.Sound t alphabet length) (hmn : m ≤ n) :
    search t cell alphabet m visited trails = some word ↔
      search t cell alphabet n visited trails = some word ∧ word.length ≤ length + m := by
  induction m generalizing n length visited trails
  case zero =>
    simp only [search, reduceCtorEq, false_iff, not_and, Nat.not_le]
    exact lt_length_of_search ht
  case succ m hi =>
    obtain ⟨n, rfl⟩ := Nat.exists_eq_add_of_le' (Nat.le_trans (Nat.succ_le_succ (Nat.zero_le m)) hmn)
    match trails with
    | [] => simp [search]
    | trail :: trails =>
      simp only [search]
      cases hs : extendAll t cell alphabet (trail :: trails) ⟨visited, []⟩
      case done found =>
        have hl := length_of_extendAll ht hs
        simp only [Option.some.injEq]
        constructor
        · rintro rfl
          exact ⟨rfl, by omega⟩
        · exact And.left
      case next level =>
        rw [← Nat.succ_add_eq_add_succ]
        exact hi (sound_of_extendAll ht hs) (Nat.le_of_succ_le_succ hmn)

-- Trails that wait, the first one of which is taken next.
structure Queue where
  visited : List (StateId × Nat)
  waiting : List Trail

namespace Queue

variable {s : WitnessSearch} {q : Queue} {r : Option (List Terminal)}

def start : Queue where
  visited := [(.root, 1)]
  waiting := [⟨[.root], []⟩]

-- What is found by extending a trail waits behind all others.
def step (s : WitnessSearch) (cell : StateId × Terminal) (q : Queue) : Step Queue (Option (List Terminal)) :=
  match q.waiting with
  | [] => .done none
  | trail :: waiting =>
    if s.maxLength ≤ trail.word.length then
      .next { q with waiting }
    else
      match extend s.table cell trail s.alphabet.toList ⟨q.visited, waiting.reverse⟩ with
      | .done word => .done (some word)
      | .next level => .next ⟨level.visited, level.trails.reverse⟩

end Queue

namespace Level

-- A level with earlier trails.
def behind (l : Level) (old : List Trail) : Level := { l with trails := l.trails ++ old }

theorem add_behind : (l.behind old).add trail = (l.add trail).behind old := by
  simp only [add, behind]
  split
  case h_1 => rfl
  case h_2 top _ _ => by_cases h : (top, trail.stack.length) ∈ l.visited <;> simp [h]

end Level

theorem extend_behind : extend t cell trail xs (l.behind old) =
    match extend t cell trail xs l with
    | .done word => .done word
    | .next level => .next (level.behind old) := by
  fun_induction extend t cell trail xs l
  case case1 => rfl
  case case2 hc => simp only [extend, hc]
  case case3 hc hi => simp only [extend, hc, Level.add_behind, hi]
  case case4 hc hi => simp only [extend, hc, hi]

namespace Queue

variable {s : WitnessSearch} {q q' : Queue} {r : Option (List Terminal)}

-- What taking one trail after the other comes to.
def Ends (s : WitnessSearch) (cell : StateId × Terminal) (q : Queue) (r : Option (List Terminal)) : Prop :=
  ∃ limit, Step.run (step s cell) limit q = some r

theorem Ends.of_done (h : step s cell q = .done r) : Ends s cell q r := ⟨1, by rw [Step.run, h]⟩

theorem Ends.of_next (h : step s cell q = .next q') (he : Ends s cell q' r) : Ends s cell q r := by
  have ⟨limit, hr⟩ := he
  exact ⟨limit + 1, by rw [Step.run, h]; exact hr⟩

theorem Ends.unique {r' : Option (List Terminal)} (h : Ends s cell q r) (h' : Ends s cell q r') : r = r' := by
  obtain ⟨m, hm⟩ := h
  obtain ⟨n, hn⟩ := h'
  have hm := Step.run_mono hm (Nat.le_max_left m n)
  have hn := Step.run_mono hn (Nat.le_max_right m n)
  exact Option.some.inj (hm.symm.trans hn)

-- Once the trails of one length have been taken, those of the next length wait in the order of their discovery.
theorem ends_of_extendAll (hl : length < s.maxLength) (ht : ∀ trail ∈ trails, trail.word.length = length)
    (he : match extendAll s.table cell s.alphabet.toList trails l with
      | .done word => r = some word
      | .next level => Ends s cell ⟨level.visited, level.trails.reverse⟩ r) :
    Ends s cell ⟨l.visited, trails ++ l.trails.reverse⟩ r := by
  induction trails generalizing l
  case nil => exact he
  case cons trail trails hi =>
    have ⟨hlength, ht⟩ := List.forall_mem_cons.mp ht
    have hmax : ¬ s.maxLength ≤ trail.word.length := by omega
    have hlevel : (⟨l.visited, (trails ++ l.trails.reverse).reverse⟩ : Level) = l.behind trails.reverse := by
      simp [Level.behind]
    have hstep : step s cell ⟨l.visited, trail :: trails ++ l.trails.reverse⟩ =
        match extend s.table cell trail s.alphabet.toList l with
        | .done word => .done (some word)
        | .next level => .next ⟨level.visited, trails ++ level.trails.reverse⟩ := by
      simp only [step, List.cons_append, if_neg hmax, hlevel, extend_behind]
      cases extend s.table cell trail s.alphabet.toList l <;> simp [Level.behind]
    rw [extendAll] at he
    cases hx : extend s.table cell trail s.alphabet.toList l
    case done word =>
      rw [hx] at he hstep
      subst he
      exact .of_done hstep
    case next level =>
      rw [hx] at he hstep
      exact .of_next hstep (hi ht he)

-- Trails of the maximal length are not extended.
theorem ends_none (ht : ∀ trail ∈ trails, trail.word.length = s.maxLength) :
    Ends s cell ⟨visited, trails⟩ none := by
  induction trails
  case nil => exact .of_done rfl
  case cons trail trails hi =>
    have ⟨hlength, ht⟩ := List.forall_mem_cons.mp ht
    have hmax : s.maxLength ≤ trail.word.length := Nat.le_of_eq hlength.symm
    exact .of_next (by simp only [step, if_pos hmax]) (hi ht)

theorem ends_search (ht : ∀ trail ∈ trails, trail.Sound s.table s.alphabet.toList length)
    (hn : length + n = s.maxLength) :
    Ends s cell ⟨visited, trails⟩ (search s.table cell s.alphabet.toList n visited trails) := by
  fun_induction search s.table cell s.alphabet.toList n visited trails generalizing length
  case case1 => exact ends_none fun trail hm => (ht trail hm).length.trans hn
  case case2 => exact .of_done rfl
  case case3 trails _ _ hd =>
    rw [← List.append_nil trails]
    exact ends_of_extendAll (l := ⟨_, []⟩) (by omega) (fun trail hm => (ht trail hm).length) (by rw [hd])
  case case4 trails _ level hnext hi =>
    rw [← List.append_nil trails]
    refine ends_of_extendAll (l := ⟨_, []⟩) (by omega) (fun trail hm => (ht trail hm).length) ?_
    rw [hnext]
    exact hi (sound_of_extendAll ht hnext) (by omega)

end Queue
end Witness

namespace WitnessSearch

variable {q : StateId} {x : Terminal} {r : Option (List Terminal)}

-- A search by one queue for trails of all lengths.
theorem ends_iff_find (s : WitnessSearch) : Witness.Queue.Ends s (q, x) .start r ↔ s.find q x = r := by
  have h : Witness.Queue.Ends s (q, x) .start (s.find q x) :=
    Witness.Queue.ends_search Witness.Trail.sound_start (Nat.zero_add _)
  exact ⟨h.unique, fun hr => hr ▸ h⟩

theorem find_truncates (s : WitnessSearch) (q : StateId) (x : Terminal) {m n : Nat} (h : m ≤ n)
    (word : List Terminal) :
    { s with maxLength := m }.find q x = some word ↔
      { s with maxLength := n }.find q x = some word ∧ word.length ≤ m := by
  rw [find, find, Witness.search_eq_some_iff Witness.Trail.sound_start h, Nat.zero_add]

end WitnessSearch

open Example.DanglingElse (grammar ifKeyword cond thenKeyword elseKeyword other) in
-- The witness of the dangling `else` is found from a bound of eight on.
theorem WitnessSearch.find_truncates_danglingElse :
    let s : WitnessSearch := { table := Example.DanglingElse.table, alphabet := .ofList grammar.terminalIds }
    let word := [ifKeyword, cond, thenKeyword, ifKeyword, cond, thenKeyword, other, elseKeyword]
    (8 ≤ 64 ∧ { s with maxLength := 8 }.find ⟨13⟩ elseKeyword = some word) ∧
      (7 ≤ 64 ∧ { s with maxLength := 7 }.find ⟨13⟩ elseKeyword ≠ some word) := by
  intro s word
  have h : { s with maxLength := 64 }.find ⟨13⟩ elseKeyword = some word := by decide +kernel
  have h8 := (s.find_truncates ⟨13⟩ elseKeyword (by decide : 8 ≤ 64) word).mpr ⟨h, by decide⟩
  have h7 := mt (s.find_truncates ⟨13⟩ elseKeyword (by decide : 7 ≤ 64) word).mp fun hw =>
    absurd hw.right (by decide)
  exact ⟨⟨by decide, h8⟩, ⟨by decide, h7⟩⟩

end CanonicalLR
