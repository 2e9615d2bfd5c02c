import CanonicalLR.Proofs.Beginnings
import CanonicalLR.Proofs.Discovery
import CanonicalLR.Proofs.ErrorDetection
import CanonicalLR.Proofs.LeastClosure
import Mathlib.Algebra.Group.Nat.Defs
import Mathlib.Data.List.ProdSigma
import Mathlib.Data.List.Sublists

namespace CanonicalLR

variable {V : Type} {g : Grammar V} {f : FirstSets}

-- The presence of a center, or of one of its lookaheads.
abbrev Feature := Center × Option Terminal

namespace ItemSet

variable {s s' : ItemSet} {t : Terminal}

def Has (s : ItemSet) : Feature → Prop
  | (c, none) => c ∈ s
  | (c, some t) => s.Holds c t

instance (s : ItemSet) : DecidablePred s.Has
  | (c, none) => inferInstanceAs <| Decidable (∃ i ∈ s.items, i.center = c)
  | (c, some t) => inferInstanceAs <| Decidable (∃ i ∈ s.items, i.center = c ∧ t ∈ i.lookaheads)

theorem eq_of_has_iff (h : ∀ x, s.Has x ↔ s'.Has x) : s = s' := by
  apply Included.antisymm
  case h₁ => exact ⟨fun c => (h (c, none)).mp, fun c t => (h (c, some t)).mp⟩
  case h₂ => exact ⟨fun c => (h (c, none)).mpr, fun c t => (h (c, some t)).mpr⟩

-- A closure adds no lookaheads but declared terminals.
theorem Closure.lookahead_cases {c : Center} (h : Closure g g.firstSets s s') (ht : s'.Holds c t) :
    t.index < g.terminals.length ∨ ∃ b, s.Holds b t := by
  have ⟨i, hi, _, ht⟩ := (h.holds c t).mp ht
  have ht := Item.mem_alphabet_iff.mp (hi.mem_alphabet Grammar.bounded_firstSets ht)
  exact ht.imp Vocabulary.mem_terminalIds.mp fun ⟨j, hj, ht⟩ => ⟨j.center, j, hj, rfl, ht⟩

end ItemSet

namespace Exploration

open Automaton

variable {s s' kernel items : ItemSet} {cores cores' : List Core} {core : Core} {xs : List Symbol}
variable {ts : List (Symbol × StateId)} {e e' : Exploration} {err : AutomatonError} {q : StateId}

-- A state that has not been there before is a state that an item set advances to.

theorem mem_reach (h : reach g f kernel cores = .ok (q, cores')) (hc : core ∈ cores') :
    core ∈ cores ∨ core.kernel = kernel := by
  cases reach_cases h
  case inl h => exact .inl (h.right ▸ hc)
  case inr h =>
    have ⟨_, _, items, _, hcores⟩ := h
    rw [hcores, List.mem_append, List.mem_singleton] at hc
    exact hc.imp_right fun hk => by rw [hk]

theorem mem_follow (h : follow g f items xs cores = .ok (ts, cores')) (hc : core ∈ cores') :
    core ∈ cores ∨ ∃ x ∈ xs, core.kernel = items.advance g x := by
  induction xs generalizing cores ts
  case nil =>
    cases h
    exact .inl hc
  case cons x xs hi =>
    have ⟨_, _, _, hr, hf, _⟩ := follow_cons h
    cases hi hf
    case inr hx =>
      have ⟨y, hy, hk⟩ := hx
      exact .inr ⟨y, .tail x hy, hk⟩
    case inl hm => exact (mem_reach hr hm).imp_right fun hk => ⟨x, .head xs, hk⟩

-- The item sets that are met on the way from the kernel of the root.
inductive Reachable (g : Grammar V) : ItemSet → Prop where
  | root : Reachable g rootKernel
  | advance {kernel items : ItemSet} {x : Symbol} (hk : Reachable g kernel)
      (hc : kernel.closure g g.firstSets = .ok items) (hx : x ∈ items.outgoing g) :
      Reachable g (items.advance g x)

theorem Reachable.step (he : Invariant g e) (hr : ∀ core ∈ e.cores, Reachable g core.kernel)
    (h : Exploration.step g g.firstSets e = .next e') : ∀ core ∈ e'.cores, Reachable g core.kernel := by
  obtain ⟨core, ts, cores', hcore, hf, rfl⟩ := step_eq_next h
  have hm := List.mem_of_getElem? hcore
  intro core' hc
  cases mem_follow hf hc
  case inl hc => exact hr core' hc
  case inr hc =>
    have ⟨x, hx, hk⟩ := hc
    exact hk ▸ (hr core hm).advance (he.closed core hm) hx

-- More item sets are met than there are numbers for states.
def Crowded (g : Grammar V) : Prop :=
  ∃ kernels : List ItemSet,
    kernels.Nodup ∧ (∀ s ∈ kernels, Reachable g s) ∧ capacity < kernels.length

-- It is enough to know some item sets that all others are among.
theorem not_crowded {bound : List ItemSet} (hl : bound.length ≤ capacity)
    (hb : ∀ s, Reachable g s → s ∈ bound) : ¬ Crowded g := by
  intro ⟨kernels, hd, hr, hlt⟩
  have hle := (List.subperm_of_subset hd fun s hs => hb s (hr s hs)).length_le
  omega

-- An exploration fails with the closure of a kernel, or for want of a number.

theorem reach_eq_error (h : reach g f kernel cores = .error err) :
    kernel.closure g f = .error err ∨
      err = .tooManyStates ∧ capacity ≤ cores.length ∧ ∀ core ∈ cores, core.kernel ≠ kernel := by
  simp only [reach] at h
  split at h
  case h_1 => contradiction
  case h_2 hn =>
    split at h
    case isTrue =>
      split at h <;> cases h
      case h_1 hc => exact .inl hc
    case isFalse hl =>
      cases h
      exact .inr ⟨rfl, Nat.le_of_not_lt hl, ne_of_locate hn⟩

theorem crowded_of_reach (hd : (cores.map Core.kernel).Nodup)
    (hr : ∀ core ∈ cores, Reachable g core.kernel) (hk : Reachable g kernel)
    (hn : ∀ core ∈ cores, core.kernel ≠ kernel) (hl : capacity ≤ cores.length) : Crowded g := by
  refine ⟨(cores.map Core.kernel).concat kernel, hd.concat ?new, ?reachable, ?length⟩
  case new =>
    intro hm
    have ⟨core, hc, hk⟩ := List.mem_map.mp hm
    exact hn core hc hk
  case reachable =>
    intro s hs
    rw [List.concat_eq_append, List.mem_append, List.mem_singleton] at hs
    cases hs
    case inr hs => exact hs ▸ hk
    case inl hs =>
      have ⟨core, hc, hs⟩ := List.mem_map.mp hs
      exact hs ▸ hr core hc
  case length => simpa using Nat.lt_succ_of_le hl

theorem follow_eq_error (hd : (cores.map Core.kernel).Nodup)
    (hr : ∀ core ∈ cores, Reachable g core.kernel) (hx : ∀ x ∈ xs, Reachable g (items.advance g x))
    (h : follow g f items xs cores = .error err) :
    (∃ s, Reachable g s ∧ s.closure g f = .error err) ∨ err = .tooManyStates ∧ Crowded g := by
  induction xs generalizing cores
  case nil => contradiction
  case cons x xs hi =>
    simp only [follow] at h
    split at h
    case h_1 he =>
      cases h
      obtain he | ⟨rfl, hl, hn⟩ := reach_eq_error he
      · exact .inl ⟨_, hx x (.head xs), he⟩
      · exact .inr ⟨rfl, crowded_of_reach hd hr (hx x (.head xs)) hn hl⟩
    case h_2 cores₁ hq =>
      split at h <;> cases h
      case h_1 he =>
        refine hi ((Discovers.reach hq).distinct hd) (fun core hc => ?_) (fun y hy => hx y (.tail x hy)) he
        exact (mem_reach hq hc).elim (hr core) fun hk => hk ▸ hx x (.head xs)

theorem step_eq_error (he : Invariant g e) (ho : Ordered e) (hr : ∀ core ∈ e.cores, Reachable g core.kernel)
    (h : step g g.firstSets e = .done (.error err)) :
    (∃ s, Reachable g s ∧ s.closure g g.firstSets = .error err) ∨ err = .tooManyStates ∧ Crowded g := by
  simp only [step] at h
  split at h
  case h_1 => cases h
  case h_2 core hcore =>
    have hm := List.mem_of_getElem? hcore
    split at h <;> cases h
    case h_1 hf =>
      exact follow_eq_error ho.distinct hr (fun x hx => (hr core hm).advance (he.closed core hm) hx) hf

-- What a center has passed is at most its whole body.
theorem mem_centers {c : Center} {p : Production V} (hp : g.production? c.production = some p)
    (hc : c.position.toNat ≤ p.body.length) : c ∈ centers g := by
  refine List.mem_flatMap.mpr ⟨p, Grammar.production?_mem hp, ?_⟩
  rw [Grammar.production?_id hp]
  refine List.mem_map.mpr ⟨c.position.toNat, List.mem_range.mpr (Nat.lt_succ_of_le hc), ?_⟩
  rw [UInt16.ofNat_toNat]

theorem advance_mem_centers {c : Center} {x : Symbol} (hx : c.next? g = some x) :
    c.advance ∈ centers g := by
  have ⟨p, hp, _⟩ := Option.bind_eq_some_iff.mp hx
  refine mem_centers (c := c.advance) hp ?_
  rw [Center.toNat_advance]
  exact Nat.le_trans (Nat.mod_le ..) (Center.lt_of_next? hp hx)

-- The features that kernels can have. The end of input is among the lookaheads even if it has not been
-- declared.
def features (g : Grammar V) : List Feature :=
  centers g ×ˢ (none :: (List.range (g.terminals.length + 1)).map fun i => some ⟨i⟩)

theorem mem_features_none {c : Center} : (c, none) ∈ features g ↔ c ∈ centers g := by
  simp [features]

theorem mem_features_some {c : Center} {t : Terminal} :
    (c, some t) ∈ features g ↔ c ∈ centers g ∧ t.index ≤ g.terminals.length := by
  cases t
  rw [features, List.mem_product, ← Nat.lt_succ_iff]
  simp

theorem limit_eq : limit g = 2 ^ (features g).length + 1 := by
  rw [limit, Nat.one_shiftLeft, features, List.length_product, List.length_cons, List.length_map,
    List.length_range, Nat.mul_comm]

-- All features of the item set are among those of the grammar.
def Bounded (g : Grammar V) (s : ItemSet) : Prop := ∀ x, s.Has x → x ∈ features g

theorem Bounded.of_centers (hc : ∀ c ∈ s, c ∈ centers g)
    (ht : ∀ c t, s.Holds c t → t.index ≤ g.terminals.length) : Bounded g s
  | (c, none), h => mem_features_none.mpr (hc c h)
  | (c, some t), h => mem_features_some.mpr ⟨hc c (ItemSet.Holds.mem h), ht c t h⟩

-- The kernel of the root, or one that is not empty and bounded. In a grammar without the augmenting
-- production the kernel of the root is not bounded.
def Met (g : Grammar V) (s : ItemSet) : Prop := s = rootKernel ∨ Bounded g s ∧ ∃ c, c ∈ s

namespace Met

theorem lookahead_le (h : Met g s) {c : Center} {t : Terminal} (ht : s.Holds c t) :
    t.index ≤ g.terminals.length := by
  cases h
  case inl h =>
    subst h
    have ⟨_, ht⟩ := ItemSet.holds_rootKernel.mp ht
    exact ht ▸ Nat.zero_le _
  case inr h => exact (mem_features_some.mp (h.left (c, some t) ht)).right

-- The kernel of the root has one center only.
theorem bounded (h : Met g s) {c : Center} (hc : c ∈ s) (hm : c ∈ centers g) : Bounded g s := by
  cases h
  case inr h => exact h.left
  case inl hr =>
    refine .of_centers (fun b hb => ?_) fun b t => lookahead_le (.inl hr)
    subst hr
    rwa [ItemSet.mem_rootKernel.mp hb, ← ItemSet.mem_rootKernel.mp hc]

end Met

theorem Reachable.met (h : Reachable g s) : Met g s := by
  induction h
  case root => exact .inl rfl
  case advance kernel items x _ hc hx hk =>
    have ⟨_, c, hm, hn⟩ := ItemSet.mem_outgoing_iff.mp hx
    refine .inr ⟨.of_centers ?centers ?lookaheads, c.advance, ItemSet.mem_advance.mpr ⟨c, hm, hn, rfl⟩⟩
    case centers =>
      intro b hb
      have ⟨a, _, ha, hab⟩ := ItemSet.mem_advance.mp hb
      exact hab ▸ advance_mem_centers ha
    case lookaheads =>
      intro b t hb
      have ⟨a, ha, _, _⟩ := ItemSet.holds_advance.mp hb
      cases (ItemSet.closure_spec hc).lookahead_cases ha
      case inl ht => exact Nat.le_of_lt ht
      case inr ht =>
        have ⟨_, ht⟩ := ht
        exact hk.lookahead_le ht

-- Kernels that share the features of the grammar are equal.
theorem Met.eq_of_filter (h : Met g s) (h' : Met g s')
    (he : (features g).filter s.Has = (features g).filter s'.Has) : s = s' := by
  have has_iff (x) (hx : x ∈ features g) : s.Has x ↔ s'.Has x := by
    have : x ∈ (features g).filter s.Has ↔ x ∈ (features g).filter s'.Has := by rw [he]
    simpa [hx] using this
  have mem_iff (c) (hc : c ∈ centers g) : c ∈ s ↔ c ∈ s' := has_iff (c, none) (mem_features_none.mpr hc)
  by_cases hb : ∃ c ∈ s, c ∈ centers g
  case pos =>
    have ⟨c, hs, hc⟩ := hb
    have hb := h.bounded hs hc
    have hb' := h'.bounded ((mem_iff c hc).mp hs) hc
    exact ItemSet.eq_of_has_iff fun x =>
      ⟨fun hx => (has_iff x (hb x hx)).mp hx, fun hx => (has_iff x (hb' x hx)).mpr hx⟩
  case neg =>
    have root {r : ItemSet} (h : Met g r) (hn : ¬ ∃ c ∈ r, c ∈ centers g) : r = rootKernel := by
      refine h.resolve_right fun ⟨hb, c, hc⟩ => hn ⟨c, hc, ?_⟩
      exact mem_features_none.mp (hb (c, none) hc)
    rw [root h hb, root h' fun ⟨c, hs, hc⟩ => hb ⟨c, (mem_iff c hc).mpr hs, hc⟩]

theorem length_cores_le (hm : ∀ core ∈ cores, Met g core.kernel)
    (hd : (cores.map Core.kernel).Nodup) : cores.length ≤ 2 ^ (features g).length := by
  have hk : ∀ s ∈ cores.map Core.kernel, Met g s := by simpa using hm
  have hn : ((cores.map Core.kernel).map fun s => (features g).filter s.Has).Nodup :=
    hd.map_on fun s hs s' hs' he => (hk s hs).eq_of_filter (hk s' hs') he
  have hs : ((cores.map Core.kernel).map fun s => (features g).filter s.Has) ⊆
      (features g).sublists := by
    intro l hl
    have ⟨s, _, hl⟩ := List.mem_map.mp hl
    exact hl ▸ List.mem_sublists.mpr List.filter_sublist
  simpa using (List.subperm_of_subset hn hs).length_le

-- What holds of an exploration from the root.
structure Sound (g : Grammar V) (e : Exploration) : Prop extends Invariant g e, Ordered e where
  reachable : ∀ core ∈ e.cores, Reachable g core.kernel

namespace Sound

theorem initial (h : rootKernel.closure g g.firstSets = .ok items) :
    Sound g ⟨[⟨rootKernel, items⟩], []⟩ where
  toInvariant := .initial h
  toOrdered := .initial
  reachable _ hc := List.mem_singleton.mp hc ▸ .root

theorem step (h : Sound g e) (hs : Exploration.step g g.firstSets e = .next e') : Sound g e' where
  toInvariant := h.toInvariant.step hs
  toOrdered := h.toOrdered.step hs
  reachable := Reachable.step h.toInvariant h.reachable hs

end Sound

theorem run_isSome (h : rootKernel.closure g g.firstSets = .ok items) :
    (Step.run (step g g.firstSets) (limit g) ⟨[⟨rootKernel, items⟩], []⟩).isSome := by
  apply Step.run_isSome (P := Sound g) (m := fun e => 2 ^ (features g).length - e.transitions.length)
  case keep => exact fun e e' he hs => he.step hs
  case decrease =>
    -- The state that gets its transitions is one of the states that there are.
    intro e e' he hs
    have hle := length_cores_le (fun core hc => (he.reachable core hc).met) he.distinct
    have ⟨core, ts, cores', hcore, _, he'⟩ := step_eq_next hs
    have ⟨hlt, _⟩ := List.getElem?_eq_some_iff.mp hcore
    rw [he', List.length_append, List.length_singleton]
    omega
  case h => exact .initial h
  case hl =>
    rw [limit_eq]
    exact Nat.lt_succ_of_le (Nat.sub_le ..)

end Exploration

namespace Automaton

open Exploration

variable {a : Automaton} {err : AutomatonError}

theorem reachable_of_build (h : build g = .ok a) : ∀ s ∈ a.states, Reachable g s.kernel := by
  intro s hs
  have ⟨items, _, e, hc, he, hd⟩ := exists_exploration h
  have he : Sound g e := he.invariant (fun _ _ => .step) (.initial hc)
  have ⟨i, hi⟩ := List.getElem?_of_mem hs
  have ⟨core, ts, hcore, _, hs⟩ := (state?_of_done (q := ⟨i⟩) hd).mp hi
  exact hs ▸ he.reachable core (List.mem_of_getElem? hcore)

-- Beyond the augmentation of the grammar, there is nothing to fail but the closure of an item set, and the
-- number of a state.
theorem build_eq_error (h : build g = .error err) :
    (∃ count, err = .notAugmented count ∧ count = (g.productionsOf .start).length ∧ count ≠ 1) ∨
      (∃ s, Reachable g s ∧ s.closure g g.firstSets = .error err) ∨
      err = .tooManyStates ∧ Crowded g := by
  simp only [build] at h
  split at h
  case isFalse hc =>
    cases h
    exact .inl ⟨_, rfl, rfl, hc⟩
  case isTrue =>
    right
    split at h
    case h_1 hc =>
      cases h
      exact .inl ⟨rootKernel, .root, hc⟩
    case h_2 items hc =>
      obtain ⟨r, hr⟩ := Option.isSome_iff_exists.mp (run_isSome hc)
      rw [hr, Option.getD_some] at h
      subst h
      obtain ⟨_, e, _, he, hd⟩ := Step.reaches_of_run hr
      have he : Sound g e := he.invariant (fun _ _ => .step) (.initial hc)
      exact step_eq_error he.toInvariant he.toOrdered he.reachable hd

-- An automaton is built if all item sets that are met have a closure and a number.
theorem build_cases (hs : (g.productionsOf .start).length = 1)
    (hc : ∀ s, Reachable g s → ∃ s', s.closure g g.firstSets = .ok s') :
    (∃ a, build g = .ok a) ∨ build g = .error .tooManyStates ∧ Crowded g := by
  cases hb : build g
  case ok a => exact .inl ⟨a, rfl⟩
  case error err =>
    obtain ⟨_, _, hn, h⟩ | ⟨s, hr, he⟩ | ⟨rfl, h⟩ := build_eq_error hb
    · exact absurd (hn.trans hs) h
    · have ⟨_, hs'⟩ := hc s hr
      cases hs'.symm.trans he
    · exact .inr ⟨rfl, h⟩

end Automaton

-- An item that has a lookahead can be expanded, and a productive grammar leaves every item that is found
-- with one.
theorem ItemSet.Live.exists_closure {s : ItemSet} (hg : g.Augmented) (hp : g.Productive) (h : s.Live g) :
    ∃ s', s.closure g g.firstSets = .ok s' := by
  refine ItemSet.exists_closure Grammar.bounded_firstSets fun i hi => ?_
  rw [Item.expand_eq_ok]
  intro n _
  have ⟨⟨t, ht⟩, _⟩ := h.found hg hp hi
  rw [FirstSets.localFirst_epsilon]
  exact fun ⟨_, hn⟩ => hn t ht

theorem Exploration.Reachable.live {s : ItemSet} (hg : g.Augmented) (hp : g.Productive)
    (h : Reachable g s) : s.Live g := by
  induction h
  case root => exact .root hg
  case advance hc _ hk => exact (hk.closure hg hp (ItemSet.closure_spec hc)).advance

namespace Grammar

theorem length_productionsOf_start {declarations : List (Declaration V)}
    (hg : define declarations = .ok g) : (g.productionsOf .start).length = 1 := by
  obtain ⟨_, _, hg⟩ := bind_eq_ok.mp hg
  have ⟨_, _, _, hl⟩ := Draft.finish_eq_ok hg
  exact hl

end Grammar

namespace Table

-- Where the numbers for states do not run out, nothing fails, and no item is without a lookahead.
theorem compile_productive {declarations : List (Declaration V)}
    (hg : Grammar.define declarations = .ok g) (hp : g.Productive) :
    (∃ a, Automaton.build g = .ok a ∧ compile g = .ok (ofAutomaton g a) ∧
      ∀ s ∈ a.states, ∀ i : Item, i ∈ s.kernel.items ∨ i ∈ s.items.items → ∃ t, t ∈ i.lookaheads) ∨
    Automaton.build g = .error .tooManyStates ∧ Exploration.Crowded g := by
  have ha := Grammar.augmented_of_define hg
  refine (Automaton.build_cases (Grammar.length_productionsOf_start hg)
    fun s hs => (hs.live ha hp).exists_closure ha hp).imp_left fun ⟨a, hb⟩ => ?_
  refine ⟨a, hb, compile_eq_ok.mpr ⟨a, hb, rfl⟩, fun s hs i hi => ?_⟩
  have hk := (Automaton.reachable_of_build hb s hs).live ha hp
  have hitems := hk.closure ha hp (ItemSet.closure_spec ((Automaton.build_canonical hb).closed s hs))
  exact hi.elim hk.exists_lookahead hitems.exists_lookahead

end Table

open Example.Nested in
theorem Example.Nested.productive : grammar.Productive := by
  have hs : grammar.Derives [.nonterminal s] (Symbol.word []) :=
    .production (p := ⟨⟨2⟩, s, [], ⟨[none], false⟩⟩) (by simp [grammar])
  have hb : ∀ p ∈ grammar.productions, ∀ x ∈ p.body, x.nonterminal?.all (· = s) := by decide
  refine Grammar.productive_of_bodies ⟨[], hs⟩ fun p hp n hn => ⟨[], ?_⟩
  have : n = s := by simpa [Symbol.nonterminal?] using hb p hp (.nonterminal n) hn
  exact this ▸ hs

open Example.Nested in
-- Behind an `a` the empty production is predicted, with the `b` after it.
theorem Table.compile_productive_nested : ∃ automaton state, Automaton.build grammar = .ok automaton ∧
    compile grammar = .ok (ofAutomaton grammar automaton) ∧ automaton.states.length = 8 ∧
    automaton.state? ⟨1⟩ = some state ∧
    state.kernel.items = [⟨⟨⟨1⟩, 1⟩, .singleton .eof⟩] ∧
    state.items.items =
      [⟨⟨⟨1⟩, 0⟩, .singleton b⟩, ⟨⟨⟨1⟩, 1⟩, .singleton .eof⟩, ⟨⟨⟨2⟩, 0⟩, .singleton b⟩] ∧
    ∀ i ∈ state.items.items, ∃ t, t ∈ i.lookaheads := by
  have hstate : (Automaton.build grammar).toOption.bind (fun automaton =>
      (automaton.state? ⟨1⟩).map fun s => (automaton.states.length, s.kernel.items, s.items.items)) =
        some (8, [⟨⟨⟨1⟩, 1⟩, .singleton .eof⟩],
          [⟨⟨⟨1⟩, 0⟩, .singleton b⟩, ⟨⟨⟨1⟩, 1⟩, .singleton .eof⟩, ⟨⟨⟨2⟩, 0⟩, .singleton b⟩]) := by
    decide +kernel
  obtain ⟨automaton, hb, hc, hl⟩ | ⟨he, _⟩ := compile_productive define_eq productive
  · simp only [hb, Except.toOption, Option.bind_some, Option.map_eq_some_iff, Prod.mk.injEq] at hstate
    obtain ⟨state, hs, hlength, hkernel, hitems⟩ := hstate
    exact ⟨automaton, state, hb, hc, hlength, hs, hkernel, hitems,
      fun i hi => hl state (List.mem_of_getElem? hs) i (.inr hi)⟩
  · rw [he] at hstate
    cases hstate

end CanonicalLR
