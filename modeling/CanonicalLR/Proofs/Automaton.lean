import CanonicalLR.Proofs.Closure

namespace CanonicalLR

variable {V : Type} {g : Grammar V}

theorem lookup_isSome_of_mem_keys {κ α : Type} [DecidableEq κ] {l : List (κ × α)} {k : κ}
    (h : k ∈ l.map Prod.fst) : ∃ a, l.lookup k = some a := by
  obtain ⟨⟨_, a⟩, hm, rfl⟩ := List.mem_map.mp h
  exact Option.isSome_iff_exists.mp (List.lookup_isSome_iff.mpr ⟨_, hm, by simp⟩)

theorem mem_of_lookup {κ α : Type} [DecidableEq κ] {l : List (κ × α)} {k : κ} {a : α}
    (h : l.lookup k = some a) : (k, a) ∈ l := by
  obtain ⟨l₁, l₂, rfl, _⟩ := List.lookup_eq_some_iff.mp h
  simp

theorem lookup_of_mem {κ α : Type} [DecidableEq κ] {l : List (κ × α)} {k : κ} {a : α}
    (hl : (l.map Prod.fst).Nodup) (h : (k, a) ∈ l) : l.lookup k = some a := by
  obtain ⟨l₁, l₂, rfl⟩ := List.append_of_mem h
  refine List.lookup_eq_some_iff.mpr ⟨l₁, l₂, rfl, fun e he => ?_⟩
  rw [List.map_append, List.nodup_append] at hl
  exact bne_iff_ne.mpr (hl.right.right e.1 (List.mem_map_of_mem he) k (by simp)).symm

-- A new last element stays exactly if it is not there already.
theorem eraseDups_concat {α : Type} [DecidableEq α] {l : List α} {a : α} :
    (l ++ [a]).eraseDups = if a ∈ l then l.eraseDups else l.eraseDups ++ [a] := by
  rw [List.eraseDups_append]
  split
  case isTrue h =>
    have : [a].removeAll l = [] := by simp [List.removeAll, h]
    simp [this]
  case isFalse h =>
    have : [a].removeAll l = [a] := by simp [List.removeAll, h]
    simp [this, List.eraseDups_cons]

namespace Exploration

variable {f : FirstSets} {cores cores' cores'' : List Core} {kernel items : ItemSet} {q : StateId}
variable {xs : List Symbol} {ts : List (Symbol × StateId)}

-- The state has the kernel.
def At (cores : List Core) (q : StateId) (kernel : ItemSet) : Prop :=
  ∃ core, cores[q.index]? = some core ∧ core.kernel = kernel

theorem At.grow (h : At cores q kernel) (hc : cores <+: cores') : At cores' q kernel := by
  have ⟨core, hq, hk⟩ := h
  exact ⟨core, getElem?_of_prefix hc hq, hk⟩

-- States are only ever added behind the ones that exist, and all of them are closed.
structure Grows (g : Grammar V) (f : FirstSets) (cores cores' : List Core) : Prop where
  initial : cores <+: cores'
  closed : (∀ core ∈ cores, core.kernel.closure g f = .ok core.items) →
    ∀ core ∈ cores', core.kernel.closure g f = .ok core.items

theorem Grows.refl : Grows g f cores cores where
  initial := List.prefix_rfl
  closed := id

theorem Grows.trans (h₁ : Grows g f cores cores') (h₂ : Grows g f cores' cores'') :
    Grows g f cores cores'' where
  initial := h₁.initial.trans h₂.initial
  closed := h₂.closed ∘ h₁.closed

theorem at_of_locate (h : locate cores kernel = some q) : At cores q kernel := by
  obtain ⟨i, hi, rfl⟩ := Option.map_eq_some_iff.mp h
  have ⟨hl, hk, _⟩ := List.findIdx?_eq_some_iff_getElem.mp hi
  exact ⟨cores[i], List.getElem?_eq_getElem hl, by simpa using hk⟩

theorem ne_of_locate (h : locate cores kernel = none) : ∀ core ∈ cores, core.kernel ≠ kernel := by
  have hn := List.findIdx?_eq_none_iff.mp (Option.map_eq_none_iff.mp h)
  exact fun core hc => by simpa using hn core hc

-- A kernel is new exactly if no state has it, and its state comes last.
theorem reach_cases (h : reach g f kernel cores = .ok (q, cores')) :
    At cores q kernel ∧ cores' = cores ∨
      (∀ core ∈ cores, core.kernel ≠ kernel) ∧ q = ⟨cores.length⟩ ∧
        ∃ items, kernel.closure g f = .ok items ∧ cores' = cores ++ [⟨kernel, items⟩] := by
  simp only [reach] at h
  split at h
  case h_1 hq =>
    cases h
    exact .inl ⟨at_of_locate hq, rfl⟩
  case h_2 hn =>
    split at h
    case isFalse => contradiction
    case isTrue =>
      split at h <;> cases h
      case h_2 items hi =>
        exact .inr ⟨ne_of_locate hn, rfl, items, hi, rfl⟩

theorem reach_spec (h : reach g f kernel cores = .ok (q, cores')) :
    Grows g f cores cores' ∧ At cores' q kernel := by
  obtain ⟨hq, rfl⟩ | ⟨_, rfl, items, hi, rfl⟩ := reach_cases h
  · exact ⟨.refl, hq⟩
  · refine ⟨{ initial := List.prefix_append .., closed := ?closed }, ?here⟩
    case closed =>
      intro hc core hm
      cases List.mem_append.mp hm
      case inl hm => exact hc core hm
      case inr hm =>
        rw [List.mem_singleton] at hm
        subst hm
        exact hi
    case here => exact ⟨⟨kernel, items⟩, List.getElem?_concat_length, rfl⟩

-- The transitions lead to the states that an item set advances to.
structure Leads (g : Grammar V) (cores : List Core) (items : ItemSet) (xs : List Symbol)
    (ts : List (Symbol × StateId)) : Prop where
  keys : ts.map Prod.fst = xs
  target : ∀ x q, (x, q) ∈ ts → At cores q (items.advance g x)

theorem Leads.grow (h : Leads g cores items xs ts) (hc : cores <+: cores') :
    Leads g cores' items xs ts where
  keys := h.keys
  target x q hm := (h.target x q hm).grow hc

theorem follow_cons {x : Symbol} (h : follow g f items (x :: xs) cores = .ok (ts, cores')) :
    ∃ q cores₁ us, reach g f (items.advance g x) cores = .ok (q, cores₁) ∧
      follow g f items xs cores₁ = .ok (us, cores') ∧ ts = (x, q) :: us := by
  simp only [follow] at h
  split at h
  case h_1 => contradiction
  case h_2 q cores₁ hr =>
    split at h <;> cases h
    case h_2 us hf => exact ⟨q, cores₁, us, hr, hf, rfl⟩

theorem follow_spec (h : follow g f items xs cores = .ok (ts, cores')) :
    Grows g f cores cores' ∧ Leads g cores' items xs ts := by
  induction xs generalizing cores ts cores'
  case nil =>
    cases h
    exact ⟨.refl, rfl, by simp⟩
  case cons x xs hi =>
    obtain ⟨q, cores₁, us, hr, hf, rfl⟩ := follow_cons h
    have ⟨hg₁, hq⟩ := reach_spec hr
    have ⟨hg₂, hl⟩ := hi hf
    refine ⟨hg₁.trans hg₂, { keys := by simp [hl.keys], target := ?target }⟩
    intro y r hm
    cases hm
    case head => exact hq.grow hg₂.initial
    case tail hm => exact hl.target y r hm

-- The first core without transitions gets them, and an exploration ends when there is none.

theorem step_eq_next {e e' : Exploration} (h : step g f e = .next e') : ∃ core ts cores',
    e.cores[e.transitions.length]? = some core ∧
      follow g f core.items (core.items.outgoing g) e.cores = .ok (ts, cores') ∧
      e' = ⟨cores', e.transitions ++ [ts]⟩ := by
  simp only [step] at h
  split at h
  case h_1 => contradiction
  case h_2 core hcore =>
    split at h <;> cases h
    case h_2 ts cores' hf => exact ⟨core, ts, cores', hcore, hf, rfl⟩

theorem step_eq_done {e : Exploration} {a : Automaton} (h : step g f e = .done (.ok a)) :
    e.cores.length ≤ e.transitions.length ∧
      a = ⟨e.cores.zipWith (fun core => .mk core.kernel core.items) e.transitions⟩ := by
  simp only [step] at h
  split at h
  case h_1 hn =>
    cases h
    exact ⟨List.getElem?_eq_none_iff.mp hn, rfl⟩
  case h_2 => split at h <;> cases h

-- What holds of an exploration at all times.
structure Invariant (g : Grammar V) (e : Exploration) : Prop where
  root : At e.cores .root Automaton.rootKernel
  closed : ∀ core ∈ e.cores, core.kernel.closure g g.firstSets = .ok core.items
  known : ∀ (i : Nat) (ts : List (Symbol × StateId)), e.transitions[i]? = some ts →
    ∃ core, e.cores[i]? = some core ∧ Leads g e.cores core.items (core.items.outgoing g) ts

theorem Invariant.initial {items : ItemSet}
    (h : Automaton.rootKernel.closure g g.firstSets = .ok items) :
    Invariant g ⟨[⟨Automaton.rootKernel, items⟩], []⟩ where
  root := ⟨_, rfl, rfl⟩
  closed core hm := by
    rw [List.mem_singleton] at hm
    subst hm
    exact h
  known := by simp

theorem Invariant.step {e e' : Exploration} (he : Invariant g e)
    (h : step g g.firstSets e = .next e') : Invariant g e' := by
  obtain ⟨core, ts, cores', hcore, hf, rfl⟩ := step_eq_next h
  have ⟨hg, hl⟩ := follow_spec hf
  refine { root := he.root.grow hg.initial, closed := hg.closed he.closed, known := ?known }
  intro i us hi
  cases getElem?_concat_cases hi
  case inl hi =>
    have ⟨core, hc, hk⟩ := he.known i us hi
    exact ⟨core, getElem?_of_prefix hg.initial hc, hk.grow hg.initial⟩
  case inr hi =>
    obtain ⟨rfl, rfl⟩ := hi
    exact ⟨core, getElem?_of_prefix hg.initial hcore, hl⟩

section Done

variable {e : Exploration} {a : Automaton} {s : State}

-- A state is a core with its transitions.
theorem state?_of_done (h : step g f e = .done (.ok a)) : a.state? q = some s ↔
    ∃ core ts, e.cores[q.index]? = some core ∧ e.transitions[q.index]? = some ts ∧
      ⟨core.kernel, core.items, ts⟩ = s := by
  obtain ⟨_, rfl⟩ := step_eq_done h
  exact List.getElem?_zipWith_eq_some

theorem exists_state_of_done (h : step g f e = .done (.ok a)) (hq : At e.cores q kernel) :
    ∃ s, a.state? q = some s ∧ s.kernel = kernel := by
  obtain ⟨core, hc, rfl⟩ := hq
  have ⟨hlen, _⟩ := step_eq_done h
  have ⟨hl, _⟩ := List.getElem?_eq_some_iff.mp hc
  have ht := List.getElem?_eq_getElem (l := e.transitions) (i := q.index) (by omega)
  exact ⟨_, (state?_of_done h).mpr ⟨core, _, hc, ht, rfl⟩, rfl⟩

-- What is known of a core in the end is what is known of its state.
theorem Invariant.of_state (he : Invariant g e) (h : Exploration.step g g.firstSets e = .done (.ok a))
    (hs : a.state? q = some s) :
    s.kernel.closure g g.firstSets = .ok s.items ∧
      Leads g e.cores s.items (s.items.outgoing g) s.transitions := by
  obtain ⟨core, ts, hc, ht, rfl⟩ := (state?_of_done h).mp hs
  obtain ⟨core', hc', hk⟩ := he.known _ ts ht
  cases hc.symm.trans hc'
  exact ⟨he.closed core (List.mem_of_getElem? hc), hk⟩

end Done

end Exploration

namespace Automaton

structure Canonical (g : Grammar V) (a : Automaton) : Prop where
  root : ∃ s, a.state? .root = some s ∧ s.kernel = rootKernel
  closed : ∀ s ∈ a.states, s.kernel.closure g g.firstSets = .ok s.items
  outgoing : ∀ s ∈ a.states, ∀ x ∈ s.items.outgoing g, ∃ q, s.target? x = some q
  target : ∀ s ∈ a.states, ∀ x q, s.target? x = some q →
    x ∈ s.items.outgoing g ∧ ∃ t, a.state? q = some t ∧ t.kernel = s.items.advance g x

open Exploration in
theorem canonical_of_explored {e : Exploration} {a : Automaton} (he : Invariant g e)
    (h : step g g.firstSets e = .done (.ok a)) : Canonical g a := by
  have of_mem s (hs : s ∈ a.states) : s.kernel.closure g g.firstSets = .ok s.items ∧
      Leads g e.cores s.items (s.items.outgoing g) s.transitions := by
    have ⟨i, hi⟩ := List.getElem?_of_mem hs
    exact he.of_state (q := ⟨i⟩) h hi
  refine {
    root := exists_state_of_done h he.root
    closed := fun s hs => (of_mem s hs).left
    outgoing := ?outgoing
    target := ?target }
  case outgoing =>
    intro s hs x hx
    exact lookup_isSome_of_mem_keys ((of_mem s hs).right.keys ▸ hx)
  case target =>
    intro s hs x q hq
    have hl := (of_mem s hs).right
    have hm := mem_of_lookup hq
    exact ⟨hl.keys ▸ List.mem_map_of_mem hm, exists_state_of_done h (hl.target x q hm)⟩

-- An automaton that is built is what an exploration from the root comes to.
theorem exists_exploration {a : Automaton} (h : build g = .ok a) : ∃ items n e,
    rootKernel.closure g g.firstSets = .ok items ∧
      Step.Reaches (Exploration.step g g.firstSets) n ⟨[⟨rootKernel, items⟩], []⟩ e ∧
      Exploration.step g g.firstSets e = .done (.ok a) := by
  simp only [build] at h
  split at h
  case isFalse => contradiction
  case isTrue =>
    split at h
    case h_1 => contradiction
    case h_2 items hc =>
      cases hr : Step.run (Exploration.step g g.firstSets) (Exploration.limit g)
          ⟨[⟨rootKernel, items⟩], []⟩
      case none =>
        rw [hr] at h
        cases h
      case some r =>
        rw [hr, Option.getD_some] at h
        subst h
        have ⟨n, e, _, he, hd⟩ := Step.reaches_of_run hr
        exact ⟨items, n, e, hc, he, hd⟩

theorem build_canonical {a : Automaton} (h : build g = .ok a) : Canonical g a := by
  have ⟨items, _, e, hc, he, hd⟩ := exists_exploration h
  exact canonical_of_explored (he.invariant (fun _ _ => .step) (.initial hc)) hd

theorem build_of_run {items : ItemSet} {r : Except AutomatonError Automaton}
    (hs : (g.productionsOf .start).length = 1) (hc : rootKernel.closure g g.firstSets = .ok items)
    (hr : Step.run (Exploration.step g g.firstSets) (Exploration.limit g) ⟨[⟨rootKernel, items⟩], []⟩ =
      some r) : build g = r := by
  simp [build, hs, hc, hr]

-- The automaton for FIRST sets that are known beforehand.
def buildWith? (g : Grammar V) (firsts : FirstSets) : Option Automaton := do
  let items ← (rootKernel.closure g firsts).toOption
  let result ← Step.run (Exploration.step g firsts) (Exploration.limit g) ⟨[⟨rootKernel, items⟩], []⟩
  result.toOption

theorem build_of_firstSets {a : Automaton} {firsts : FirstSets} (hf : g.firstSets = firsts)
    (hs : (g.productionsOf .start).length = 1) (ha : buildWith? g firsts = some a) :
    build g = .ok a := by
  subst hf
  simp only [buildWith?, Option.bind_eq_bind, Option.bind_eq_some_iff] at ha
  have ⟨items, hc, result, hr, ha⟩ := ha
  cases hk : rootKernel.closure g g.firstSets <;> rw [hk] at hc <;> cases hc
  cases result <;> cases ha
  exact build_of_run hs hk hr

namespace Canonical

variable {a : Automaton} {s : State} {q : StateId} {x : Symbol} {c : Center} {u : Terminal}

theorem closure (ha : Canonical g a) (hs : a.state? q = some s) :
    ItemSet.Closure g g.firstSets s.kernel s.items :=
  ItemSet.closure_spec (ha.closed s (List.mem_of_getElem? hs))

-- The automaton follows every symbol that comes next in an item, and the item moves on with its
-- lookaheads, of which there may be none.
theorem exists_target_of_mem (hg : g.Augmented) (ha : Canonical g a) (hs : a.state? q = some s)
    (hc : c ∈ s.items) (hx : c.next? g = some x) :
    ∃ q' t, s.target? x = some q' ∧ a.state? q' = some t ∧ c.advance ∈ t.items ∧
      ∀ u, s.items.Holds c u → t.items.Holds c.advance u := by
  have hm := List.mem_of_getElem? hs
  have ⟨q', hq⟩ := ha.outgoing s hm x
    (ItemSet.mem_outgoing_iff.mpr ⟨(Center.usable_next hg hx).left, c, hc, hx⟩)
  have ⟨_, t, ht, hk⟩ := ha.target s hm x q' hq
  have hclosure := ha.closure ht
  rw [hk] at hclosure
  exact ⟨q', t, hq, ht, hclosure.given (ItemSet.mem_advance.mpr ⟨c, hc, hx, rfl⟩),
    fun u hu => hclosure.given_holds (ItemSet.holds_advance.mpr ⟨c, hu, hx, rfl⟩)⟩

theorem exists_target (hg : g.Augmented) (ha : Canonical g a) (hs : a.state? q = some s)
    (hc : s.items.Holds c u) (hx : c.next? g = some x) :
    ∃ q' t, s.target? x = some q' ∧ a.state? q' = some t ∧ t.items.Holds c.advance u := by
  have ⟨q', t, hq, ht, _, hh⟩ := ha.exists_target_of_mem hg hs hc.mem hx
  exact ⟨q', t, hq, ht, hh u hc⟩

end Canonical
end Automaton
end CanonicalLR
