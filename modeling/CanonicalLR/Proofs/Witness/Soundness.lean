import CanonicalLR.Proofs.Lookup
import CanonicalLR.Proofs.Soundness
import CanonicalLR.Table.Witness
import Mathlib.Data.List.ProdSigma

namespace CanonicalLR

namespace Witness

variable {t : Table} {cell : StateId × Terminal} {alphabet xs : List Terminal} {x : Terminal}
variable {stack : List StateId} {trail : Trail} {trails : List Trail} {level l l₁ l₂ l₃ : Level}
variable {length budget n : Nat} {visited : List (StateId × Nat)} {word : List Terminal}

-- What an outcome says about the machine. There is nothing to say if it is stuck.
def Outcome.Holds (t : Table) (cell : StateId × Terminal) (x : Terminal) (stack : List StateId) :
    Outcome → Prop
  | reached => ∃ n below, t.machine.Reduces x n stack (cell.1 :: below) ∧ x = cell.2
  | shifted stack' => ∃ n top below next, t.machine.Reduces x n stack (top :: below) ∧
      t.machine.action top x = some (.shift next) ∧ stack' = next :: top :: below
  | stuck => True

theorem Outcome.Holds.next {outcome : Outcome} {top : StateId} {below middle : List StateId}
    {id : ProductionId} {head : Nonterminal} (ha : t.action? top x = some (.reduce id head length))
    (hr : t.machine.reduceStack head length (top :: below) = .ok middle)
    (h : outcome.Holds t cell x middle) : outcome.Holds t cell x (top :: below) := by
  cases outcome
  case reached =>
    have ⟨n, below, h, hx⟩ := h
    exact ⟨n + 1, below, .next ha hr h, hx⟩
  case shifted =>
    have ⟨n, top, below, next, h, hs⟩ := h
    exact ⟨n + 1, top, below, next, .next ha hr h, hs⟩
  case stuck => trivial

theorem consume_holds (t : Table) (cell : StateId × Terminal) (x : Terminal) (budget : Nat)
    (stack : List StateId) : (consume t cell x budget stack).Holds t cell x stack := by
  fun_induction consume t cell x budget stack
  case case1 => trivial
  case case2 budget top below h =>
    cases h
    exact ⟨0, below, .refl _, rfl⟩
  case case3 budget top below _ next ha => exact ⟨0, top, below, next, .refl _, ha, rfl⟩
  case case4 => trivial
  case case5 ha _ _ hr hi => exact hi.next ha hr
  case case6 => trivial
  case case7 => trivial

-- The word of a trail leads to its stack. All trails of a level are of the same length.
structure Trail.Sound (t : Table) (alphabet : List Terminal) (length : Nat) (trail : Trail) : Prop where
  leads : t.machine.Leads trail.word trail.stack
  alphabet : ∀ x ∈ trail.word, x ∈ alphabet
  length : trail.word.length = length

theorem Trail.sound_start : ∀ trail ∈ [(⟨[.root], []⟩ : Trail)], trail.Sound t alphabet 0 := by
  simpa using ⟨.start, by simp, rfl⟩

theorem Trail.Sound.shift (h : trail.Sound t alphabet length) (hx : x ∈ alphabet)
    (hs : consume t cell x budget trail.stack = .shifted stack) :
    (⟨stack, x :: trail.word⟩ : Trail).Sound t alphabet (length + 1) := by
  have hh := consume_holds t cell x budget trail.stack
  rw [hs] at hh
  obtain ⟨n, top, below, next, hr, ha, rfl⟩ := hh
  exact {
    leads := .shift h.leads hr ha
    alphabet := List.forall_mem_cons.mpr ⟨hx, h.alphabet⟩
    length := congrArg (· + 1) h.length }

theorem Trail.Sound.product (h : ∀ trail ∈ trails, trail.Sound t alphabet length) :
    ∀ p ∈ trails ×ˢ alphabet, p.1.Sound t alphabet length ∧ p.2 ∈ alphabet :=
  fun p hp => (List.mem_product.mp hp).imp_left (h p.1)

-- A stack with this top state and of this depth has been met.
def Met (visited : List (StateId × Nat)) (stack : List StateId) : Prop :=
  ∃ top, stack.head? = some top ∧ (top, stack.length) ∈ visited

namespace Level

-- What a level learns about the trails of the next length.
structure Grows (t : Table) (alphabet : List Terminal) (length : Nat) (l l' : Level) : Prop where
  sound : ∀ trail ∈ l'.trails, trail ∈ l.trails ∨ trail.Sound t alphabet length
  keep : ∀ trail ∈ l.trails, trail ∈ l'.trails
  visited : ∀ key ∈ l.visited, key ∈ l'.visited
  fresh : ∀ key ∈ l'.visited, key ∈ l.visited ∨
    ∃ trail ∈ l'.trails, trail.stack.head? = some key.1 ∧ trail.stack.length = key.2

namespace Grows

theorem met (h : l.Grows t alphabet length level) (hm : Met l.visited stack) : Met level.visited stack :=
  hm.imp fun _ ⟨hs, hv⟩ => ⟨hs, h.visited _ hv⟩

theorem refl : l.Grows t alphabet length l where
  sound _ := .inl
  keep _ := id
  visited _ := id
  fresh _ := .inl

theorem trans (h₁ : l₁.Grows t alphabet length l₂) (h₂ : l₂.Grows t alphabet length l₃) :
    l₁.Grows t alphabet length l₃ where
  sound trail ht := (h₂.sound trail ht).elim (h₁.sound trail) .inr
  keep trail ht := h₂.keep trail (h₁.keep trail ht)
  visited key hk := h₂.visited key (h₁.visited key hk)
  fresh key hk := by
    obtain hk | h := h₂.fresh key hk
    · exact (h₁.fresh key hk).imp_right fun ⟨trail, ht, hs⟩ => ⟨trail, h₂.keep trail ht, hs⟩
    · exact .inr h

-- The trails of the next length, in the order in which they were found.
theorem sound_reverse (h : Grows t alphabet length ⟨visited, []⟩ level) :
    ∀ trail ∈ level.trails.reverse, trail.Sound t alphabet length :=
  fun trail ht => (h.sound trail (List.mem_reverse.mp ht)).resolve_left List.not_mem_nil

end Grows

theorem add_spec (h : trail.Sound t alphabet length) :
    l.Grows t alphabet length (l.add trail) ∧ Met (l.add trail).visited trail.stack := by
  have ⟨top, below, hs⟩ := h.leads.exists_cons
  simp only [add, hs]
  split
  case isTrue hv => exact ⟨.refl, top, rfl, hv⟩
  case isFalse =>
    constructor
    case right => exact ⟨top, rfl, List.mem_cons_self⟩
    case left =>
      exact {
        sound := fun u hu => (List.mem_cons.mp hu).elim (fun he => .inr (he ▸ h)) .inl
        keep := fun u => List.mem_cons_of_mem _
        visited := fun key => List.mem_cons_of_mem _
        fresh := fun key hk => (List.mem_cons.mp hk).elim
          (fun he => .inr ⟨trail, List.mem_cons_self, by simp [hs, he]⟩) .inl }

-- The trail has been extended by the terminal, without reaching the cell.
def Passes (t : Table) (cell : StateId × Terminal) (l : Level) (trail : Trail) (x : Terminal) : Prop :=
  match consume t cell x (t.stateCount + trail.stack.length) trail.stack with
  | .reached => False
  | .shifted stack => Met l.visited stack
  | .stuck => True

theorem Passes.grow (hp : l.Passes t cell trail x) (h : l.Grows t alphabet length level) :
    level.Passes t cell trail x := by
  simp only [Passes] at hp ⊢
  split at hp
  case h_1 => exact hp.elim
  case h_2 => exact h.met hp
  case h_3 => trivial

end Level

-- A trail that is extended by a terminal and reaches the cell.
def Finds (t : Table) (cell : StateId × Terminal) (trail : Trail) (x : Terminal)
    (word : List Terminal) : Prop :=
  word = (x :: trail.word).reverse ∧
    consume t cell x (t.stateCount + trail.stack.length) trail.stack = .reached

-- How a level changes as trails are extended by terminals, none of which reaches the cell.
inductive Explored (t : Table) (cell : StateId × Terminal) (level : Level) :
    List (Trail × Terminal) → Level → Prop
  | start : Explored t cell level [] level
  | stuck {pairs : List (Trail × Terminal)} {l : Level} {trail : Trail} {x : Terminal}
    (rec : Explored t cell level pairs l)
    (stuck : consume t cell x (t.stateCount + trail.stack.length) trail.stack = .stuck) :
    Explored t cell level (pairs ++ [(trail, x)]) l
  | shifted {pairs : List (Trail × Terminal)} {l : Level} {trail : Trail} {x : Terminal}
    {stack : List StateId} (rec : Explored t cell level pairs l)
    (shifted : consume t cell x (t.stateCount + trail.stack.length) trail.stack = .shifted stack) :
    Explored t cell level (pairs ++ [(trail, x)]) (l.add ⟨stack, x :: trail.word⟩)

variable {pairs others : List (Trail × Terminal)}

-- What becomes of some pairs behind those that have been explored.
def Explores (t : Table) (cell : StateId × Terminal) (level : Level)
    (pairs others : List (Trail × Terminal)) : Step Level (List Terminal) → Prop
  | .done word => ∃ p ∈ others, Finds t cell p.1 p.2 word
  | .next l => Explored t cell level (pairs ++ others) l

theorem Explores.assoc {more : List (Trail × Terminal)} {r : Step Level (List Terminal)}
    (h : Explores t cell level (pairs ++ others) more r) : Explores t cell level pairs (others ++ more) r := by
  cases r
  case done => exact h.imp fun _ => .imp_left (List.mem_append_right _)
  case next => rwa [Explores, List.append_assoc] at h

theorem extend_explores (trail : Trail) (xs : List Terminal) (h : Explored t cell level pairs l) :
    Explores t cell level pairs (xs.map (trail, ·)) (extend t cell trail xs l) := by
  fun_induction extend t cell trail xs l generalizing pairs
  case case1 => simpa [Explores] using h
  case case2 hc => exact ⟨_, .head _, rfl, hc⟩
  case case3 x xs _ _ hc hi => exact (hi (h.shifted hc)).assoc
  case case4 x xs _ hc hi => exact (hi (h.stuck hc)).assoc

theorem extendAll_explores (trails : List Trail) (alphabet : List Terminal)
    (h : Explored t cell level pairs l) :
    Explores t cell level pairs (trails ×ˢ alphabet) (extendAll t cell alphabet trails l) := by
  fun_induction extendAll t cell alphabet trails l generalizing pairs
  case case1 => simpa [Explores] using h
  case case2 trail trails l word hd =>
    have he := hd ▸ extend_explores trail alphabet h
    exact he.imp fun _ => .imp_left (List.mem_append_left _)
  case case3 trail trails l l' hn hi =>
    have he := hn ▸ extend_explores trail alphabet h
    exact (hi he).assoc

theorem finds_of_extendAll (h : extendAll t cell alphabet trails level = .done word) :
    ∃ p ∈ trails ×ˢ alphabet, Finds t cell p.1 p.2 word := by
  have he : Explores t cell level [] (trails ×ˢ alphabet) _ := extendAll_explores trails alphabet .start
  rwa [h] at he

theorem explored_of_extendAll (h : extendAll t cell alphabet trails level = .next l) :
    Explored t cell level (trails ×ˢ alphabet) l := by
  have he : Explores t cell level [] (trails ×ˢ alphabet) _ := extendAll_explores trails alphabet .start
  rwa [h] at he

namespace Explored

theorem grows (h : Explored t cell level pairs l)
    (hs : ∀ p ∈ pairs, p.1.Sound t alphabet length ∧ p.2 ∈ alphabet) :
    level.Grows t alphabet (length + 1) l := by
  induction h
  case start => exact .refl
  case stuck hi => exact hi (List.forall_mem_append.mp hs).left
  case shifted trail x _ _ hc hi =>
    have ⟨hs, hp⟩ := List.forall_mem_append.mp hs
    have ⟨ht, hx⟩ := hp (trail, x) (List.mem_singleton_self _)
    exact (hi hs).trans (Level.add_spec (ht.shift hx hc)).left

theorem passes (h : Explored t cell level pairs l)
    (hs : ∀ p ∈ pairs, p.1.Sound t alphabet length ∧ p.2 ∈ alphabet) :
    ∀ p ∈ pairs, l.Passes t cell p.1 p.2 := by
  induction h
  case start => exact fun _ => List.not_mem_nil.elim
  case stuck hc hi =>
    have ⟨hs, _⟩ := List.forall_mem_append.mp hs
    exact List.forall_mem_append.mpr ⟨hi hs, by simp [Level.Passes, hc]⟩
  case shifted l trail x _ _ hc hi =>
    have ⟨hs, hp⟩ := List.forall_mem_append.mp hs
    have ⟨ht, hx⟩ := hp (trail, x) (List.mem_singleton_self _)
    have ⟨hgrow, hmet⟩ := Level.add_spec (l := l) (ht.shift hx hc)
    refine List.forall_mem_append.mpr ⟨fun p hp => (hi hs p hp).grow hgrow, ?_⟩
    simpa [Level.Passes, hc] using hmet

end Explored

theorem sound_of_extendAll (ht : ∀ trail ∈ trails, trail.Sound t alphabet length)
    (h : extendAll t cell alphabet trails ⟨visited, []⟩ = .next level) :
    ∀ trail ∈ level.trails.reverse, trail.Sound t alphabet (length + 1) :=
  ((explored_of_extendAll h).grows (Trail.Sound.product ht)).sound_reverse

theorem search_spec (length : Nat) (h : ∀ trail ∈ trails, trail.Sound t alphabet length)
    (hs : search t cell alphabet n visited trails = some word) :
    ∃ (trail : Trail) (k : Nat), trail.Sound t alphabet k ∧ k < length + n ∧
      ∃ x ∈ alphabet, Finds t cell trail x word := by
  fun_induction search t cell alphabet n visited trails generalizing length
  case case1 => contradiction
  case case2 => contradiction
  case case3 n visited trails _ word hd =>
    cases hs
    have ⟨(trail, x), hp, hf⟩ := finds_of_extendAll hd
    have ⟨ht, hx⟩ := List.mem_product.mp hp
    exact ⟨trail, length, h trail ht, by omega, x, hx, hf⟩
  case case4 n visited trails _ level hn hi =>
    have ⟨trail, k, ht, hk, hf⟩ := hi _ (sound_of_extendAll h hn) hs
    exact ⟨trail, k, ht, by omega, hf⟩

end Witness

namespace WitnessSearch

variable {s : WitnessSearch} {q : StateId} {x : Terminal} {u : List Terminal} {stack below : List StateId}
variable {n : Nat}

-- The string is one that may be searched for, and in front of its last terminal the machine looks up
-- the cell.
structure Witnesses (s : WitnessSearch) (q : StateId) (x : Terminal) (word : List Terminal) : Prop where
  alphabet : ∀ y ∈ word, y ∈ s.alphabet
  length : word.length ≤ s.maxLength
  last : word.getLast? = some x
  visits : ∀ tokens : List (Token Terminal), tokens.map Token.kind = word →
    s.table.machine.Visits tokens q

theorem Witnesses.of_leads (hx : x ∈ s.alphabet) (hu : ∀ y ∈ u, y ∈ s.alphabet)
    (hn : u.length < s.maxLength) (hl : s.table.machine.Leads u stack)
    (hr : s.table.machine.Reduces x n stack (q :: below)) : s.Witnesses q x (x :: u).reverse where
  alphabet y hy := by
    obtain rfl | hy := List.mem_cons.mp (List.mem_reverse.mp hy)
    · exact hx
    · exact hu y hy
  length := by rwa [List.length_reverse, List.length_cons]
  last := by simp
  visits tokens hk := (Machine.visits_iff (by simpa using hk)).mpr ⟨stack, n, below, hl, hr⟩

theorem witnesses_of_find {word : List Terminal} (h : s.find q x = some word) : s.Witnesses q x word := by
  obtain ⟨trail, k, ht, hk, y, hy, hw, hc⟩ := Witness.search_spec 0 Witness.Trail.sound_start h
  have hh := Witness.consume_holds s.table (q, x) y (s.table.stateCount + trail.stack.length) trail.stack
  rw [hc] at hh
  obtain ⟨n, below, hr, rfl⟩ := hh
  rw [hw]
  refine .of_leads (TerminalSet.mem_toList.mp hy) ?_ ?_ ht.leads hr
  · exact fun z hz => TerminalSet.mem_toList.mp (ht.alphabet z hz)
  · rw [ht.length]
    omega

-- All conflicts before the one that is found have no witness.
theorem find_sound (s : WitnessSearch) :
    (∀ q x word, s.find q x = some word → 0 < word.length ∧ s.Witnesses q x word) ∧
    ∀ c word, s.findAny = some (c, word) → c ∈ s.table.conflicts ∧ s.Witnesses c.state c.terminal word ∧
      s.find c.state c.terminal = some word ∧
      ∃ before after, s.table.conflicts = before ++ c :: after ∧
        ∀ b ∈ before, s.find b.state b.terminal = none := by
  constructor
  case left =>
    intro q x word h
    have hw := witnesses_of_find h
    refine ⟨List.length_pos_iff.mpr ?_, hw⟩
    rintro rfl
    simpa using hw.last
  case right =>
    intro c word h
    obtain ⟨before, b, after, hc, hb, hn⟩ := List.findSome?_eq_some_iff.mp h
    obtain ⟨_, hf, ⟨⟩⟩ := Option.map_eq_some_iff.mp hb
    refine ⟨by simp [hc], witnesses_of_find hf, hf, before, after, hc, fun b hb => ?_⟩
    exact Option.map_eq_none_iff.mp (hn b hb)

end WitnessSearch

open Example.DanglingElse (grammar ifKeyword cond thenKeyword elseKeyword other) in
-- The conflict of the dangling `else` is reached after two conditions.
theorem WitnessSearch.find_sound_danglingElse :
    let s : WitnessSearch := { table := Example.DanglingElse.table, alphabet := .ofList grammar.terminalIds }
    let word := [ifKeyword, cond, thenKeyword, ifKeyword, cond, thenKeyword, other, elseKeyword]
    s.findAny = some (⟨⟨13⟩, elseKeyword, .shiftReduce⟩, word) ∧ s.Witnesses ⟨13⟩ elseKeyword word := by
  intro s word
  have h : s.findAny = some (⟨⟨13⟩, elseKeyword, .shiftReduce⟩, word) := by decide +kernel
  exact ⟨h, (s.find_sound.right _ _ h).right.left⟩

end CanonicalLR
