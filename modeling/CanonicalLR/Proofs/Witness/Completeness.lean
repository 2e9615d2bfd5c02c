import CanonicalLR.Proofs.Completeness
import CanonicalLR.Proofs.Witness.Order

namespace CanonicalLR

namespace Witness

variable {t : Table} {cell : StateId × Terminal} {alphabet word : List Terminal} {x : Terminal}
variable {top : StateId} {stack below : List StateId} {trails : List Trail} {level : Level}
variable {length budget n : Nat} {visited : List (StateId × Nat)}

-- What the machine does within the budget is what becomes of the terminal.

theorem consume_next {middle : List StateId} {id : ProductionId} {head : Nonterminal}
    (hc : (top, x) ≠ cell) (ha : t.machine.action top x = some (.reduce id head length))
    (hr : t.machine.reduceStack head length (top :: below) = .ok middle) :
    consume t cell x (budget + 1) (top :: below) = consume t cell x budget middle := by
  have ha : t.action? top x = some (.reduce id head length) := ha
  simp [consume, hc, ha, hr]

theorem consume_eq_reached (cell : StateId × Terminal)
    (h : t.machine.Reduces x n stack (cell.1 :: below)) (hx : x = cell.2)
    (hn : n ≤ budget) : consume t cell x budget stack = .reached := by
  generalize hs : cell.1 :: below = last at h
  induction h generalizing budget
  case refl =>
    rw [← hs, consume, if_pos (by rw [hx])]
  case next n top below middle _ _ _ _ ha hr _ hi =>
    obtain ⟨budget, rfl⟩ : ∃ k, budget = k + 1 := ⟨budget - 1, by omega⟩
    by_cases hc : (top, x) = cell
    case pos => rw [consume, if_pos hc]
    case neg =>
      rw [consume_next hc ha hr]
      exact hi (by omega) hs

theorem consume_eq_shifted {next : StateId} (cell : StateId × Terminal)
    (h : t.machine.Reduces x n stack (top :: below))
    (hx : t.machine.action top x = some (.shift next)) (hn : n ≤ budget) :
    consume t cell x budget stack = .reached ∨
      consume t cell x budget stack = .shifted (next :: top :: below) := by
  generalize hs : top :: below = last at h
  induction h generalizing budget
  case refl =>
    have hx : t.action? top x = some (.shift next) := hx
    rw [← hs, consume]
    split
    case isTrue => exact .inl rfl
    case isFalse => simp [hx]
  case next n top below middle _ _ _ _ ha hr _ hi =>
    obtain ⟨budget, rfl⟩ : ∃ k, budget = k + 1 := ⟨budget - 1, by omega⟩
    by_cases hc : (top, x) = cell
    case pos => exact .inl (by rw [consume, if_pos hc])
    case neg =>
      rw [consume_next hc ha hr]
      exact hi (by omega) hs

end Witness

theorem exists_longest_prefix {α : Type} {P : List α → Prop} {l u : List α} (h : u <+: l) (hu : P u) :
    ∃ v, v <+: l ∧ P v ∧ ∀ v' : List α, v' <+: l → P v' → v'.length ≤ v.length := by
  by_cases hl : ∀ v : List α, v <+: l → P v → v.length ≤ u.length
  case pos => exact ⟨u, h, hu, hl⟩
  case neg =>
    push Not at hl
    obtain ⟨v, hv, hp, hlt⟩ := hl
    exact exists_longest_prefix hv hp
termination_by l.length - u.length
decreasing_by
  have := hv.length_le
  omega

namespace WitnessSearch

variable {s : WitnessSearch} {q : StateId} {x : Terminal} {word u found : List Terminal}
variable {length n : Nat} {visited : List (StateId × Nat)} {trails : List Witness.Trail}

-- Nothing keeps the search from pursuing the string.
structure Unobstructed (s : WitnessSearch) (q : StateId) (word : List Terminal) : Prop where
  -- No string that comes earlier leads to another stack with the same state on top and of the same depth.
  apart : ∀ u x rest, word = u ++ x :: rest → ∀ (v : List Terminal) stack stack', Witness.Earlier v u →
    (∀ y ∈ v, y ∈ s.alphabet) → s.table.machine.Leads u.reverse stack →
    s.table.machine.Leads v.reverse stack' → stack'.head? = stack.head? → stack'.length = stack.length →
    stack' = stack
  -- The reductions in front of each terminal are within the budget.
  shifts : ∀ u x y rest, word = u ++ x :: y :: rest → ∀ stack, s.table.machine.Leads u.reverse stack →
    ∃ n top below next, n ≤ s.table.stateCount + stack.length ∧
      s.table.machine.Reduces x n stack (top :: below) ∧ s.table.action? top x = some (.shift next)
  reaches : ∀ u x, word = u ++ [x] → ∀ stack, s.table.machine.Leads u.reverse stack →
    ∃ n below, n ≤ s.table.stateCount + stack.length ∧ s.table.machine.Reduces x n stack (q :: below)

-- A stack that a part of the string leads to has been met.
structure Marks (s : WitnessSearch) (visited : List (StateId × Nat)) (word u : List Terminal) : Prop where
  proper : ∃ x rest, word = u ++ x :: rest
  met : ∃ stack, s.table.machine.Leads u.reverse stack ∧ Witness.Met visited stack

-- A trail leads to the same stack as a string, which does not come earlier.
structure Follows (s : WitnessSearch) (trail : Witness.Trail) (u : List Terminal) : Prop where
  leads : s.table.machine.Leads u.reverse trail.stack
  earlier : trail.string = u ∨ Witness.Earlier trail.string u

-- The search pursues the longest one of these parts.
structure Pursues (s : WitnessSearch) (length : Nat) (visited : List (StateId × Nat))
    (trails : List Witness.Trail) (word u : List Terminal) : Prop where
  proper : ∃ x rest, word = u ++ x :: rest
  length : length ≤ u.length
  trail : ∃ trail ∈ trails, s.Follows trail u
  longest : ∀ v, s.Marks visited word v → v.length ≤ u.length

theorem Marks.mem (h : s.Marks visited word u) : u <+: word := by
  obtain ⟨x, rest, rfl⟩ := h.proper
  exact List.prefix_append u (x :: rest)

theorem Pursues.length_lt (h : s.Pursues length visited trails word u) : u.length < word.length := by
  obtain ⟨x, rest, rfl⟩ := h.proper
  simp

-- A trail that comes no later cannot be mistaken for the string.
theorem Unobstructed.follows (h : s.Unobstructed q word) {trail : Witness.Trail} {stack : List StateId}
    (hu : ∃ x rest, word = u ++ x :: rest) (hl : s.table.machine.Leads u.reverse stack)
    (ht : trail.Sound s.table s.alphabet.toList length) (htop : trail.stack.head? = stack.head?)
    (hdepth : trail.stack.length = stack.length)
    (he : trail.string = u ∨ Witness.Earlier trail.string u) : s.Follows trail u := by
  have hs : trail.stack = stack := by
    cases he
    case inl he => exact ht.leads_string.unique (he ▸ hl)
    case inr he =>
      obtain ⟨x, rest, hw⟩ := hu
      refine h.apart u x rest hw trail.string stack trail.stack he (fun y hy => ?_) hl ht.leads_string htop hdepth
      exact TerminalSet.mem_toList.mp (ht.alphabet y (List.mem_reverse.mp hy))
  exact ⟨hs ▸ hl, he⟩

theorem Unobstructed.exists_pursues_start (h : s.Unobstructed q word) (hw : word ≠ []) :
    ∃ u, s.Pursues 0 [(.root, 1)] [⟨[.root], []⟩] word u := by
  have hnil : s.Marks [(.root, 1)] word [] :=
    ⟨List.exists_cons_of_ne_nil hw, [.root], .start, .root, rfl, List.mem_singleton_self _⟩
  have ⟨u, _, hu, hlongest⟩ := exists_longest_prefix hnil.mem hnil
  obtain ⟨stack, hl, top, htop, hv⟩ := hu.met
  obtain ⟨rfl, hdepth⟩ := Prod.mk.inj (List.mem_singleton.mp hv)
  have he : ([] : List Terminal) = u ∨ Witness.Earlier [] u := by
    cases u
    case nil => exact .inl rfl
    case cons => exact .inr (.of_length_lt (Nat.succ_pos _))
  have hm : (⟨[.root], []⟩ : Witness.Trail) ∈ [⟨[.root], []⟩] := List.mem_singleton_self _
  exact ⟨u, hu.proper, Nat.zero_le _, ⟨_, hm, h.follows hu.proper hl (Witness.Trail.sound_start _ hm)
    htop.symm hdepth.symm he⟩, fun v hv => hlongest v hv.mem hv⟩

-- The trail shifts the next terminal, unless it finds what is searched for.
theorem Follows.shifted {level : Witness.Level} {trail : Witness.Trail} {y z : Terminal}
    {rest : List Terminal} (h : s.Unobstructed q word) (ht : s.Follows trail u)
    (hw : word = u ++ y :: z :: rest) (hpass : level.Passes s.table (q, x) trail y) :
    ∃ stack, Witness.consume s.table (q, x) y (s.table.stateCount + trail.stack.length) trail.stack =
        .shifted stack ∧
      s.table.machine.Leads (u ++ [y]).reverse stack ∧ Witness.Met level.visited stack := by
  obtain ⟨n, top, below, next, hn, hr, ha⟩ := h.shifts u y z rest hw trail.stack ht.leads
  cases Witness.consume_eq_shifted (q, x) hr ha hn
  case inl hc => simp [Witness.Level.Passes, hc] at hpass
  case inr hc =>
    refine ⟨_, hc, ?_, by simpa [Witness.Level.Passes, hc] using hpass⟩
    rw [List.reverse_append]
    exact ht.leads.shift hr ha

-- The part that is pursued has been extended by the next terminal, so a longer part is marked.
theorem Pursues.exists_longer {level : Witness.Level} (h : s.Unobstructed q word)
    (hx : word.getLast? = some x) (hp : s.Pursues length visited trails word u)
    (hpasses : ∀ trail ∈ trails, ∀ y ∈ word, level.Passes s.table (q, x) trail y) :
    ∃ v, s.Marks level.visited word v ∧ u.length < v.length := by
  obtain ⟨y, rest, rfl⟩ := hp.proper
  obtain ⟨trail, hmem, ht⟩ := hp.trail
  have hpass := hpasses trail hmem y (by simp)
  cases rest
  case nil =>
    obtain rfl : y = x := by simpa using hx
    obtain ⟨n, below, hn, hr⟩ := h.reaches u y rfl trail.stack ht.leads
    have hc := Witness.consume_eq_reached (q, y) hr rfl hn
    simp [Witness.Level.Passes, hc] at hpass
  case cons z rest =>
    obtain ⟨stack, _, hl, hm⟩ := ht.shifted h rfl hpass
    exact ⟨u ++ [y], ⟨⟨z, rest, by simp⟩, stack, hl, hm⟩, by simp⟩

-- What is kept for a longer part comes no later than the part.
theorem Pursues.exists_follows {level : Witness.Level} {v : List Terminal} (h : s.Unobstructed q word)
    (hp : s.Pursues length visited trails word u)
    (ht : ∀ trail ∈ trails, trail.Sound s.table s.alphabet.toList length)
    (hgrow : Witness.Level.Grows s.table s.alphabet.toList (length + 1) ⟨visited, []⟩ level)
    (ho : Witness.Ordered s.table (q, x) visited (trails ×ˢ s.alphabet.toList) level)
    (hw : ∀ y ∈ word, y ∈ s.alphabet)
    (hpasses : ∀ trail ∈ trails, ∀ y ∈ word, level.Passes s.table (q, x) trail y)
    (hv : s.Marks level.visited word v) (hlt : u.length < v.length) :
    ∃ trail ∈ level.trails, s.Follows trail v := by
  have hsound trail (hm : trail ∈ level.trails) : trail.Sound s.table s.alphabet.toList (length + 1) :=
    hgrow.sound_reverse trail (List.mem_reverse.mpr hm)
  have hnew {stack} (hl : s.table.machine.Leads v.reverse stack) : ¬ Witness.Met visited stack :=
    fun hm => Nat.not_le.mpr hlt (hp.longest v ⟨hv.proper, stack, hl, hm⟩)
  obtain hlong | heq := Nat.lt_or_eq_of_le (Nat.lt_of_le_of_lt hp.length hlt)
  case inl =>
    obtain ⟨stack, hl, top, htop, hkey⟩ := hv.met
    obtain hold | ⟨trail, hm, hs⟩ := hgrow.fresh _ hkey
    · exact absurd ⟨top, htop, hold⟩ (hnew hl)
    · have hlength : trail.string.length < v.length := by
        rwa [Witness.Trail.length_string, (hsound trail hm).length]
      exact ⟨trail, hm, h.follows hv.proper hl (hsound trail hm) (hs.left.trans htop.symm) hs.right
        (.inr (.of_length_lt hlength))⟩
  case inr =>
    -- Then the part has one terminal more than the one that is pursued.
    have hu : u.length = length := by
      have := hp.length
      omega
    obtain ⟨y, rest, rfl⟩ := hp.proper
    obtain ⟨z, others, hz⟩ := hv.proper
    rw [List.append_cons] at hz
    obtain ⟨rfl, rfl⟩ := List.append_inj hz (by simp [hu, ← heq])
    obtain ⟨before, hm, hf⟩ := hp.trail
    obtain ⟨stack, hc, hl, _⟩ := hf.shifted h rfl (hpasses before hm y (by simp))
    have hmem : (before, y) ∈ trails ×ˢ s.alphabet.toList :=
      List.mem_product.mpr ⟨hm, TerminalSet.mem_toList.mpr (hw y (by simp))⟩
    obtain hold | ⟨trail, hm', htop, hdepth, he⟩ := ho.first _ hmem stack hc
    · exact absurd hold (hnew hl)
    · have hbefore : before.string.length = u.length := by
        rw [Witness.Trail.length_string, (ht before hm).length, hu]
      exact ⟨trail, hm', h.follows hv.proper hl (hsound trail hm') htop hdepth
        (Witness.Earlier.eq_or_snoc he hf.earlier hbefore)⟩

theorem Pursues.next {level : Witness.Level} (h : s.Unobstructed q word) (hx : word.getLast? = some x)
    (hw : ∀ y ∈ word, y ∈ s.alphabet) (hp : s.Pursues length visited trails word u)
    (ht : ∀ trail ∈ trails, trail.Sound s.table s.alphabet.toList length) (hs : Witness.Sorted trails)
    (hn : Witness.extendAll s.table (q, x) s.alphabet.toList trails ⟨visited, []⟩ = .next level) :
    ∃ v, s.Pursues (length + 1) level.visited level.trails.reverse word v := by
  have hproduct := Witness.Trail.Sound.product ht
  have hexplored := Witness.explored_of_extendAll hn
  have ho := Witness.ordered_of_extendAll ht hs (Witness.sorted_toList s.alphabet) hn
  have hpasses trail (ht : trail ∈ trails) y (hy : y ∈ word) : level.Passes s.table (q, x) trail y :=
    hexplored.passes hproduct (trail, y)
      (List.mem_product.mpr ⟨ht, TerminalSet.mem_toList.mpr (hw y hy)⟩)
  have ⟨u', hu', hlonger⟩ := hp.exists_longer h hx hpasses
  have ⟨v, _, hv, hlongest⟩ := exists_longest_prefix hu'.mem hu'
  have hlt : u.length < v.length := Nat.lt_of_lt_of_le hlonger (hlongest u' hu'.mem hu')
  obtain ⟨trail, hm, hf⟩ :=
    hp.exists_follows h ht (hexplored.grows hproduct) ho hw hpasses hv hlt
  exact ⟨v, hv.proper, Nat.lt_of_le_of_lt hp.length hlt, ⟨trail, List.mem_reverse.mpr hm, hf⟩,
    fun w hw => hlongest w hw.mem hw⟩

theorem Pursues.search (h : s.Unobstructed q word) (hx : word.getLast? = some x)
    (hw : ∀ y ∈ word, y ∈ s.alphabet) (hp : s.Pursues length visited trails word u)
    (ht : ∀ trail ∈ trails, trail.Sound s.table s.alphabet.toList length) (hs : Witness.Sorted trails)
    (hn : word.length ≤ length + n) :
    ∃ found, Witness.search s.table (q, x) s.alphabet.toList n visited trails = some found ∧
      found.length ≤ word.length := by
  have hlt := hp.length_lt
  have hle := hp.length
  fun_induction Witness.search s.table (q, x) s.alphabet.toList n visited trails generalizing length u
  case case1 => omega
  case case2 => obtain ⟨_, hmem, _⟩ := hp.trail; contradiction
  case case3 n visited trails _ found hd =>
    obtain ⟨⟨trail, y⟩, hmem, hf, _⟩ := Witness.finds_of_extendAll hd
    have htrail := ht trail (List.mem_product.mp hmem).left
    refine ⟨found, rfl, ?_⟩
    rw [hf, List.length_reverse, List.length_cons, htrail.length]
    omega
  case case4 n visited trails _ level hnext hi =>
    obtain ⟨v, hv⟩ := hp.next h hx hw ht hs hnext
    have ho := Witness.ordered_of_extendAll ht hs (Witness.sorted_toList s.alphabet) hnext
    exact hi hv (Witness.sound_of_extendAll ht hnext) ho.sorted (by omega) hv.length_lt hv.length

theorem Witnesses.exists_find (hw : s.Witnesses q x word) (h : s.Unobstructed q word) :
    ∃ found, s.find q x = some found ∧ found.length ≤ word.length := by
  have hne : word ≠ [] := by
    rintro rfl
    simpa using hw.last
  have ⟨u, hp⟩ := h.exists_pursues_start hne
  exact hp.search h hw.last hw.alphabet Witness.Trail.sound_start (List.pairwise_singleton ..)
    (by simpa using hw.length)

-- The search finds a shortest witness, provided that not all shortest witnesses are obstructed.
theorem find_shortest (s : WitnessSearch) (q : StateId) (x : Terminal)
    (h : ∀ word, s.Witnesses q x word →
      ∃ other, s.Witnesses q x other ∧ other.length ≤ word.length ∧ s.Unobstructed q other) :
    (∀ word, s.Witnesses q x word → ∃ found, s.find q x = some found ∧ s.Witnesses q x found ∧
      found.length ≤ word.length) ∧
    (s.find q x = none → ∀ word, ¬ s.Witnesses q x word) := by
  have hfind word (hw : s.Witnesses q x word) : ∃ found, s.find q x = some found ∧
      s.Witnesses q x found ∧ found.length ≤ word.length := by
    have ⟨other, ho, hle, hu⟩ := h word hw
    have ⟨found, hf, hlength⟩ := ho.exists_find hu
    exact ⟨found, hf, witnesses_of_find hf, Nat.le_trans hlength hle⟩
  refine ⟨hfind, fun hnone word hw => ?_⟩
  have ⟨found, hf, _⟩ := hfind word hw
  rw [hnone] at hf
  contradiction

end WitnessSearch

namespace Example.Brackets

def search : WitnessSearch where
  table := table
  alphabet := .ofList grammar.terminalIds

theorem action_root {y : Terminal} (h : y ∈ search.alphabet) :
    table.action? .root y = none ∨ y = lparen ∧ table.action? .root y = some (.shift ⟨1⟩) ∨
      y = a ∧ table.action? .root y = some (.shift ⟨2⟩) := by
  have hall : ∀ y ∈ search.alphabet.toList, table.action? .root y = none ∨
      y = lparen ∧ table.action? .root y = some (.shift ⟨1⟩) ∨
      y = a ∧ table.action? .root y = some (.shift ⟨2⟩) := by
    decide +kernel
  exact hall y (TerminalSet.mem_toList.mpr h)

theorem reduces_root {y : Terminal} {n : Nat} {stack : List StateId} (hy : y ∈ search.alphabet)
    (h : table.machine.Reduces y n [.root] stack) : stack = [.root] := by
  cases h
  case refl => rfl
  case next ha _ _ =>
    have ha : table.action? .root y = _ := ha
    obtain hn | ⟨_, hn⟩ | ⟨_, hn⟩ := action_root hy
    all_goals exact absurd (ha.symm.trans hn) nofun

theorem leads_singleton {y : Terminal} {stack : List StateId} (hy : y ∈ search.alphabet)
    (h : table.machine.Leads [y] stack) :
    y = lparen ∧ stack = [⟨1⟩, .root] ∨ y = a ∧ stack = [⟨2⟩, .root] := by
  cases h
  case shift hr ha hroot =>
    cases hroot
    obtain ⟨rfl, rfl⟩ := List.cons.inj (reduces_root hy hr)
    have ha : table.action? .root y = _ := ha
    obtain hn | ⟨rfl, hn⟩ | ⟨rfl, hn⟩ := action_root hy
    · exact absurd (ha.symm.trans hn) nofun
    · cases ha.symm.trans hn
      exact .inl ⟨rfl, rfl⟩
    · cases ha.symm.trans hn
      exact .inr ⟨rfl, rfl⟩

theorem leads_atom {stack : List StateId} (h : table.machine.Leads [a] stack) : stack = [⟨2⟩, .root] := by
  obtain ⟨h, _⟩ | ⟨_, h⟩ := leads_singleton (by decide) h
  · exact absurd h (by decide)
  · exact h

theorem witnesses_atom : search.Witnesses ⟨2⟩ .eof [a, .eof] :=
  .of_leads (u := [a]) (by decide) (by decide) (by decide) (.shift .start (.refl _) rfl) (.refl _)

-- The end of input is not enough.
theorem two_le_length {word : List Terminal} (h : search.Witnesses ⟨2⟩ .eof word) : 2 ≤ word.length := by
  match word, h with
  | [], h => simpa using h.last
  | [y], h =>
    obtain rfl : y = .eof := by simpa using h.last
    obtain ⟨stack, n, below, hl, hr⟩ :=
      (Machine.visits_iff (w := []) rfl).mp (h.visits [.endOfInput ⟨1, 1⟩] rfl)
    cases hl
    exact absurd (reduces_root (by decide) hr) (by simp [StateId.root])
  | _ :: _ :: _, _ => simp

theorem split_atom {u rest : List Terminal} {x : Terminal} (h : [a, .eof] = u ++ x :: rest) :
    u = [] ∧ x = a ∧ rest = [.eof] ∨ u = [a] ∧ x = .eof ∧ rest = [] := by
  match u with
  | [] => simp_all
  | [_] => simp_all
  | _ :: _ :: _ => simp at h

theorem unobstructed_atom : search.Unobstructed ⟨2⟩ [a, .eof] where
  apart u x rest hw v stack stack' he hv hl hl' htop hdepth := by
    obtain ⟨rfl, _⟩ | ⟨rfl, _⟩ := split_atom hw
    · exact absurd he List.not_shortlex_nil_right
    · obtain rfl := leads_atom hl
      match v with
      | [] =>
        cases hl'
        contradiction
      | [z] =>
        obtain ⟨_, rfl⟩ | ⟨_, rfl⟩ := leads_singleton (hv z List.mem_cons_self) hl'
        · exact absurd htop (by decide)
        · rfl
      | _ :: _ :: _ => exact absurd (Witness.Earlier.length_le he) (by simp)
  shifts u x y rest hw stack hl := by
    obtain ⟨rfl, rfl, _⟩ | ⟨_, _, h⟩ := split_atom hw
    · cases hl
      exact ⟨0, .root, [], ⟨2⟩, Nat.zero_le _, .refl _, rfl⟩
    · contradiction
  reaches u x hw stack hl := by
    obtain ⟨_, _, h⟩ | ⟨rfl, rfl, _⟩ := split_atom hw
    · contradiction
    · obtain rfl := leads_atom hl
      exact ⟨0, [.root], Nat.zero_le _, .refl _⟩

end Example.Brackets

open Example.Brackets in
theorem WitnessSearch.find_shortest_brackets :
    ∃ found, search.find ⟨2⟩ .eof = some found ∧ search.Witnesses ⟨2⟩ .eof found ∧ found.length ≤ 2 :=
  have h word (hw : search.Witnesses ⟨2⟩ .eof word) : ∃ other, search.Witnesses ⟨2⟩ .eof other ∧
      other.length ≤ word.length ∧ search.Unobstructed ⟨2⟩ other :=
    ⟨[a, .eof], witnesses_atom, two_le_length hw, unobstructed_atom⟩
  (search.find_shortest ⟨2⟩ .eof h).left [a, .eof] witnesses_atom

namespace Example.SharedDepth

def a : Terminal := ⟨1⟩
def b : Terminal := ⟨2⟩
def x : Terminal := ⟨3⟩
def d : Terminal := ⟨4⟩

def s : Nonterminal := ⟨1⟩
def c : Nonterminal := ⟨2⟩
def p : Nonterminal := ⟨3⟩
def q : Nonterminal := ⟨4⟩

-- After `A X` and after `B X`, there is the same state on stacks of the same depth. Only the second one
-- leads to the conflict of `P` and `Q`.
def declarations : List (Declaration Ast) := [
  .terminal "A", .terminal "B", .terminal "X", .terminal "D",
  .nonterminal "S", .nonterminal "C", .nonterminal "P", .nonterminal "Q",
  .production s [a, c, d] .none,
  .production s [b, c, p] .none,
  .production s [b, c, q] .none,
  .production c [x] .none,
  .production p [d] .none,
  .production q [d] .none]

def grammar : Grammar Ast where
  terminals := ["$eof", "A", "B", "X", "D"]
  nonterminals := ["$start", "S", "C", "P", "Q"]
  productions := [
    ⟨.accept, .start, [.nonterminal s], .none⟩,
    ⟨⟨1⟩, s, [a, c, d], ⟨List.replicate 4 none, false⟩⟩,
    ⟨⟨2⟩, s, [b, c, p], ⟨List.replicate 4 none, false⟩⟩,
    ⟨⟨3⟩, s, [b, c, q], ⟨List.replicate 4 none, false⟩⟩,
    ⟨⟨4⟩, c, [x], ⟨List.replicate 2 none, false⟩⟩,
    ⟨⟨5⟩, p, [d], ⟨List.replicate 2 none, false⟩⟩,
    ⟨⟨6⟩, q, [d], ⟨List.replicate 2 none, false⟩⟩]
  startSymbol := s

def table : Table := ⟨[
  ⟨[(⟨1⟩, [.shift ⟨1⟩]), (⟨2⟩, [.shift ⟨2⟩])], [(⟨1⟩, [⟨3⟩])]⟩,
  ⟨[(⟨3⟩, [.shift ⟨4⟩])], [(⟨2⟩, [⟨5⟩])]⟩,
  ⟨[(⟨3⟩, [.shift ⟨4⟩])], [(⟨2⟩, [⟨6⟩])]⟩,
  ⟨[(⟨0⟩, [.accept])], []⟩,
  ⟨[(⟨4⟩, [.reduce ⟨4⟩ ⟨2⟩ 1])], []⟩,
  ⟨[(⟨4⟩, [.shift ⟨7⟩])], []⟩,
  ⟨[(⟨4⟩, [.shift ⟨8⟩])], [(⟨3⟩, [⟨9⟩]), (⟨4⟩, [⟨10⟩])]⟩,
  ⟨[(⟨0⟩, [.reduce ⟨1⟩ ⟨1⟩ 3])], []⟩,
  ⟨[(⟨0⟩, [.reduce ⟨5⟩ ⟨3⟩ 1, .reduce ⟨6⟩ ⟨4⟩ 1])], []⟩,
  ⟨[(⟨0⟩, [.reduce ⟨2⟩ ⟨1⟩ 3])], []⟩,
  ⟨[(⟨0⟩, [.reduce ⟨3⟩ ⟨1⟩ 3])], []⟩]⟩

theorem define_eq : Grammar.define declarations = .ok grammar := by rfl

theorem compile_eq : Table.compile grammar = .ok table := by rfl

def search : WitnessSearch where
  table := table
  alphabet := .ofList grammar.terminalIds

theorem leads : table.machine.Leads [d, x, b] [⟨8⟩, ⟨6⟩, ⟨2⟩, .root] := by
  have hb : table.machine.Leads [b] [⟨2⟩, .root] := .shift .start (.refl _) rfl
  have hx : table.machine.Leads [x, b] [⟨4⟩, ⟨2⟩, .root] := hb.shift (.refl _) rfl
  have hd : table.machine.Reduces d 1 [⟨4⟩, ⟨2⟩, .root] [⟨6⟩, ⟨2⟩, .root] := .next rfl rfl (.refl _)
  exact hx.shift hd rfl

theorem witnesses : search.Witnesses ⟨8⟩ .eof [b, x, d, .eof] :=
  .of_leads (u := [d, x, b]) (by decide) (by decide) (by decide) leads (.refl _)

end Example.SharedDepth

open Example.SharedDepth in
-- The one conflict has a witness, and none is found.
theorem WitnessSearch.find_none_of_witnessed :
    Grammar.define declarations = .ok grammar ∧ Table.compile grammar = .ok search.table ∧
      search.table.conflicts = [⟨⟨8⟩, .eof, .reduceReduce⟩] ∧
      search.Witnesses ⟨8⟩ .eof [b, x, d, .eof] ∧ search.find ⟨8⟩ .eof = none ∧ search.findAny = none :=
  ⟨define_eq, compile_eq, by decide +kernel, witnesses, by decide +kernel, by decide +kernel⟩

end CanonicalLR
