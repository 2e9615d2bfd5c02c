import CanonicalLR.Proofs.Witness.Soundness
import Mathlib.Data.List.Shortlex

namespace CanonicalLR.Witness

-- The search comes to shorter strings first, and to strings of one length in the order of their terminals.
def Earlier (v u : List Terminal) : Prop :=
  List.Shortlex (· < ·) (v.map Terminal.index) (u.map Terminal.index)

namespace Earlier

variable {u v w : List Terminal} {x y : Terminal}

theorem iff_or : Earlier v u ↔ v.length < u.length ∨
    v.length = u.length ∧ List.Lex (· < ·) (v.map Terminal.index) (u.map Terminal.index) := by
  simp [Earlier, List.shortlex_def]

theorem of_length_lt (h : v.length < u.length) : Earlier v u := iff_or.mpr (.inl h)

theorem length_le (h : Earlier v u) : v.length ≤ u.length := by
  obtain h | ⟨h, _⟩ := iff_or.mp h
  · exact Nat.le_of_lt h
  · exact Nat.le_of_eq h

theorem snoc (u : List Terminal) (h : x.index < y.index) : Earlier (u ++ [x]) (u ++ [y]) := by
  rw [Earlier, List.map_append, List.map_append]
  exact List.Shortlex.append_left ((List.shortlex_singleton_iff ..).mpr h) _

theorem lex_append {l l' : List Nat} (s s' : List Nat) (h : List.Lex (· < ·) l l')
    (hl : l.length = l'.length) : List.Lex (· < ·) (l ++ s) (l' ++ s') := by
  induction h
  case nil => contradiction
  case cons hi => exact .cons (hi (Nat.succ.inj hl))
  case rel h => exact .rel h

theorem append (h : Earlier v u) (hl : v.length = u.length) (x y : Terminal) :
    Earlier (v ++ [x]) (u ++ [y]) := by
  obtain h | ⟨_, h⟩ := iff_or.mp h
  · exact absurd hl (Nat.ne_of_lt h)
  · refine iff_or.mpr (.inr ⟨by simp [hl], ?_⟩)
    rw [List.map_append, List.map_append]
    exact lex_append _ _ h (by simp [hl])

theorem trans (h : Earlier v u) (h' : Earlier u w) : Earlier v w := by
  obtain h | ⟨hl, h⟩ := iff_or.mp h
  all_goals obtain h' | ⟨hl', h'⟩ := iff_or.mp h'
  · exact .of_length_lt (Nat.lt_trans h h')
  · exact .of_length_lt (hl' ▸ h)
  · exact .of_length_lt (hl ▸ h')
  · exact iff_or.mpr (.inr ⟨hl.trans hl', lt_trans (α := List Nat) h h'⟩)

theorem eq_or_snoc (h : w = v ++ [y] ∨ Earlier w (v ++ [y])) (h' : v = u ∨ Earlier v u)
    (hl : v.length = u.length) : w = u ++ [y] ∨ Earlier w (u ++ [y]) := by
  cases h'
  case inl h' => exact h' ▸ h
  case inr h' =>
    have hu := h'.append hl y y
    exact .inr (h.elim (fun h => h ▸ hu) fun h => h.trans hu)

end Earlier

variable {t : Table} {cell : StateId × Terminal} {alphabet : List Terminal} {trails : List Trail}
variable {level : Level} {visited : List (StateId × Nat)} {pairs : List (Trail × Terminal)} {length : Nat}

theorem sorted_toList (s : TerminalSet) : s.toList.Pairwise (·.index < ·.index) := by
  refine List.Pairwise.filter _ (List.pairwise_map.mpr ?_)
  exact List.pairwise_lt_range

-- What is kept latest first, in the order of reading.
def Trail.string (trail : Trail) : List Terminal := trail.word.reverse

@[simp]
theorem Trail.length_string {trail : Trail} : trail.string.length = trail.word.length := List.length_reverse

theorem Trail.Sound.leads_string {trail : Trail} (h : trail.Sound t alphabet length) :
    t.machine.Leads trail.string.reverse trail.stack := by
  rw [string, List.reverse_reverse]
  exact h.leads

def Sorted (trails : List Trail) : Prop :=
  trails.Pairwise fun trail trail' => Earlier trail.string trail'.string

def extension (p : Trail × Terminal) : List Terminal := p.1.string ++ [p.2]

theorem Sorted.product (h : Sorted trails) (hl : ∀ trail ∈ trails, trail.word.length = length)
    (ha : alphabet.Pairwise (·.index < ·.index)) :
    (trails ×ˢ alphabet).Pairwise fun p p' => Earlier (extension p) (extension p') := by
  refine List.pairwise_flatMap.mpr ⟨fun trail _ => ?_, h.imp_of_mem fun {trail trail'} ht ht' he => ?_⟩
  · exact List.pairwise_map.mpr (ha.imp (.snoc trail.string))
  · simp only [List.forall_mem_map]
    intro x _ y _
    refine he.append ?_ x y
    rw [Trail.length_string, Trail.length_string, hl trail ht, hl trail' ht']

-- A level keeps the first of all strings that lead to stacks with the same state on top and of the same depth.
structure Ordered (t : Table) (cell : StateId × Terminal) (visited : List (StateId × Nat))
    (pairs : List (Trail × Terminal)) (level : Level) : Prop where
  sorted : Sorted level.trails.reverse
  extension : ∀ trail ∈ level.trails, ∃ p ∈ pairs, trail.string = extension p
  first : ∀ p ∈ pairs, ∀ stack,
    consume t cell p.2 (t.stateCount + p.1.stack.length) p.1.stack = .shifted stack →
    Met visited stack ∨ ∃ trail ∈ level.trails, trail.stack.head? = stack.head? ∧
      trail.stack.length = stack.length ∧
      (trail.string = Witness.extension p ∨ Earlier trail.string (Witness.extension p))

theorem Ordered.stuck {p : Trail × Terminal} (h : Ordered t cell visited pairs level)
    (hc : consume t cell p.2 (t.stateCount + p.1.stack.length) p.1.stack = .stuck) :
    Ordered t cell visited (pairs ++ [p]) level where
  sorted := h.sorted
  extension trail ht := (h.extension trail ht).imp fun _ => .imp_left (List.mem_append_left _)
  first := List.forall_mem_append.mpr ⟨h.first, by simp [hc]⟩

theorem Ordered.shifted {p : Trail × Terminal} {stack : List StateId} (h : Ordered t cell visited pairs level)
    (hp : ∀ q ∈ pairs, Earlier (Witness.extension q) (Witness.extension p))
    (hc : consume t cell p.2 (t.stateCount + p.1.stack.length) p.1.stack = .shifted stack)
    (hfresh : ∀ key ∈ level.visited, key ∈ visited ∨
      ∃ trail ∈ level.trails, trail.stack.head? = some key.1 ∧ trail.stack.length = key.2) :
    Ordered t cell visited (pairs ++ [p]) (level.add ⟨stack, p.2 :: p.1.word⟩) := by
  have hh := consume_holds t cell p.2 (t.stateCount + p.1.stack.length) p.1.stack
  rw [hc] at hh
  obtain ⟨_, top, below, next, _, _, rfl⟩ := hh
  have hearlier trail (ht : trail ∈ level.trails) : Earlier trail.string (Witness.extension p) := by
    obtain ⟨q, hq, he⟩ := h.extension trail ht
    exact he ▸ hp q hq
  have hstring : (⟨next :: top :: below, p.2 :: p.1.word⟩ : Trail).string = Witness.extension p := by
    simp [Trail.string, Witness.extension]
  have hextension trail (ht : trail ∈ level.trails) : ∃ q ∈ pairs ++ [p], trail.string = Witness.extension q :=
    (h.extension trail ht).imp fun _ => .imp_left (List.mem_append_left _)
  simp only [Level.add]
  split
  case isTrue hv =>
    -- A trail that is kept has come earlier.
    refine ⟨h.sorted, hextension, List.forall_mem_append.mpr ⟨h.first, ?last⟩⟩
    case last =>
      simp only [List.mem_singleton, forall_eq, hc, Outcome.shifted.injEq, forall_eq']
      obtain hv | ⟨trail, ht, htop, hdepth⟩ := hfresh _ hv
      · exact .inl ⟨next, rfl, hv⟩
      · exact .inr ⟨trail, ht, htop, hdepth, .inr (hearlier trail ht)⟩
  case isFalse =>
    refine ⟨?sorted, List.forall_mem_cons.mpr ⟨⟨p, by simp, hstring⟩, hextension⟩,
      List.forall_mem_append.mpr ⟨?first, ?last⟩⟩
    case sorted =>
      rw [List.reverse_cons]
      refine List.pairwise_append.mpr ⟨h.sorted, List.pairwise_singleton .., fun trail ht trail' ht' => ?_⟩
      rw [List.mem_singleton.mp ht', hstring]
      exact hearlier trail (List.mem_reverse.mp ht)
    case first =>
      intro q hq stack hs
      exact (h.first q hq stack hs).imp_right fun h => h.imp fun _ => .imp_left (.tail _)
    case last =>
      simp only [List.mem_singleton, forall_eq, hc, Outcome.shifted.injEq, forall_eq']
      exact .inr ⟨_, .head _, rfl, rfl, .inl hstring⟩

theorem Explored.ordered (h : Explored t cell ⟨visited, []⟩ pairs level)
    (hs : ∀ p ∈ pairs, p.1.Sound t alphabet length ∧ p.2 ∈ alphabet)
    (hp : pairs.Pairwise fun p p' => Earlier (extension p) (extension p')) :
    Ordered t cell visited pairs level := by
  induction h
  case start => exact ⟨.nil, fun _ => List.not_mem_nil.elim, fun _ => List.not_mem_nil.elim⟩
  case stuck hc hi =>
    have ⟨hp, _⟩ := List.pairwise_append.mp hp
    exact (hi (List.forall_mem_append.mp hs).left hp).stuck hc
  case shifted hl hc hi =>
    have ⟨hs, _⟩ := List.forall_mem_append.mp hs
    have ⟨hp, _, hlast⟩ := List.pairwise_append.mp hp
    exact (hi hs hp).shifted (fun q hq => hlast q hq _ (List.mem_singleton_self _)) hc (hl.grows hs).fresh

theorem ordered_of_extendAll (ht : ∀ trail ∈ trails, trail.Sound t alphabet length) (hs : Sorted trails)
    (ha : alphabet.Pairwise (·.index < ·.index))
    (h : extendAll t cell alphabet trails ⟨visited, []⟩ = .next level) :
    Ordered t cell visited (trails ×ˢ alphabet) level := by
  have hsorted := hs.product (fun trail hm => (ht trail hm).length) ha
  exact (explored_of_extendAll h).ordered (Trail.Sound.product ht) hsorted

end CanonicalLR.Witness
