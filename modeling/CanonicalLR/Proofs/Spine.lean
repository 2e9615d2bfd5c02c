import CanonicalLR.Proofs.Automaton

namespace CanonicalLR

open Automaton

variable {V : Type} {g : Grammar V} {a : Automaton}

-- The states along a path, with the symbols that the path follows. The latest ones come first.
inductive Spine (a : Automaton) : List StateId → List Symbol → Prop
  | root : Spine a [.root] []
  | push {q q' : StateId} {below : List StateId} {s : State} {x : Symbol} {γ : List Symbol}
    (rec : Spine a (q :: below) γ) (state : a.state? q = some s) (target : s.target? x = some q') :
    Spine a (q' :: q :: below) (x :: γ)

namespace Spine

variable {stack below : List StateId} {q : StateId} {γ : List Symbol} {n : Nat}

theorem exists_cons (h : Spine a stack γ) : ∃ q below, stack = q :: below := by
  cases h
  case root => exact ⟨_, _, rfl⟩
  case push => exact ⟨_, _, rfl⟩

theorem drop (h : Spine a stack γ) (hn : n ≤ γ.length) : Spine a (stack.drop n) (γ.drop n) := by
  induction h generalizing n
  case root =>
    cases Nat.le_zero.mp hn
    exact .root
  case push h hs ht hi =>
    cases n
    case zero => exact .push h hs ht
    case succ n => exact hi (Nat.le_of_succ_le_succ hn)

theorem state (ha : Canonical g a) (h : Spine a (q :: below) γ) : ∃ s, a.state? q = some s := by
  generalize hq : q :: below = stack at h
  cases h
  case root =>
    cases hq
    have ⟨s, hs, _⟩ := ha.root
    exact ⟨s, hs⟩
  case push hs hx =>
    cases hq
    have ⟨_, t, ht, _⟩ := ha.target _ (List.mem_of_getElem? hs) _ _ hx
    exact ⟨t, ht⟩

-- What holds of the root, and goes on from the items of a state to all states that they lead to, holds
-- of every path and its top state.
theorem stack_induction {P : List StateId → List Symbol → State → Prop} {s : State}
    (ha : Canonical g a)
    (root : ∀ s, a.state? .root = some s → s.kernel = rootKernel →
      ItemSet.Closure g g.firstSets s.kernel s.items → P [.root] [] s)
    (push : ∀ q q' below s t x γ, P (q :: below) γ s → a.state? q' = some t →
      x ∈ s.items.outgoing g → t.kernel = s.items.advance g x →
      ItemSet.Closure g g.firstSets t.kernel t.items → P (q' :: q :: below) (x :: γ) t)
    (h : Spine a (q :: below) γ) (hs : a.state? q = some s) : P (q :: below) γ s := by
  generalize hq : q :: below = stack at h
  induction h generalizing q below s
  case root =>
    cases hq
    have ⟨s', hs', hk⟩ := ha.root
    cases hs.symm.trans hs'
    exact root s hs hk (ha.closure hs)
  case push ht hx hi =>
    cases hq
    have ⟨ho, t, ht', hk⟩ := ha.target _ (List.mem_of_getElem? ht) _ _ hx
    cases hs.symm.trans ht'
    exact push _ _ _ _ s _ _ (hi ht rfl) hs ho hk (ha.closure hs)

-- The path is of no interest if only the string and the state are.
theorem state_induction {P : List Symbol → State → Prop} {s : State} (ha : Canonical g a)
    (root : ∀ s, s.kernel = rootKernel → ItemSet.Closure g g.firstSets s.kernel s.items → P [] s)
    (push : ∀ s t x γ, P γ s → x ∈ s.items.outgoing g → t.kernel = s.items.advance g x →
      ItemSet.Closure g g.firstSets t.kernel t.items → P (x :: γ) t)
    (h : Spine a (q :: below) γ) (hs : a.state? q = some s) : P γ s :=
  h.stack_induction (P := fun _ => P) ha (fun s _ => root s)
    (fun _ _ _ s t x γ hp _ => push s t x γ hp) hs

-- No state on a path is empty.
theorem exists_mem {s : State} (ha : Canonical g a) (h : Spine a (q :: below) γ)
    (hs : a.state? q = some s) : ∃ c, c ∈ s.items := by
  refine h.state_induction (P := fun _ s => ∃ c, c ∈ s.items) ha ?root ?push hs
  case root =>
    intro s hk hc
    exact ⟨⟨.accept, 0⟩, hc.given (hk ▸ ItemSet.mem_rootKernel.mpr rfl)⟩
  case push =>
    intro s t x γ _ hx hk hc
    have ⟨_, c, hm, hn⟩ := ItemSet.mem_outgoing_iff.mp hx
    exact ⟨c.advance, hc.given (hk ▸ ItemSet.mem_advance.mpr ⟨c, hm, hn, rfl⟩)⟩

end Spine

namespace Center

variable {c : Center} {p : Production V} {γ δ : List Symbol} {x : Symbol}

-- The string ends with the part of the body before the marker. Nothing stands below the body of the
-- augmenting production. The string is read backwards.
structure Fits (g : Grammar V) (c : Center) (p : Production V) (γ δ : List Symbol) : Prop where
  lookup : g.production? c.production = some p
  position : c.position.toNat ≤ p.body.length
  spelled : γ = (p.body.take c.position.toNat).reverse ++ δ
  accept : c.production = .accept → δ = []

namespace Fits

theorem start (h : g.production? c.production = some p) (hc : c.position = 0)
    (ha : c.production = .accept → γ = []) : c.Fits g p γ γ where
  lookup := h
  position := by simp [hc]
  spelled := by simp [hc]
  accept := ha

theorem advance_of_position (h : c.Fits g p γ δ) (hx : c.next? g = some x)
    (hc : c.advance.position.toNat = c.position.toNat + 1) : c.advance.Fits g p (x :: γ) δ := by
  have hl := lt_of_next? h.lookup hx
  rw [next?_eq h.lookup] at hx
  refine { lookup := h.lookup, position := hc ▸ hl, spelled := ?_, accept := h.accept }
  rw [hc]
  simp [List.take_add_one, hx, h.spelled]

theorem advance_of_short (hs : p.Short) (h : c.Fits g p γ δ) (hx : c.next? g = some x) :
    c.advance.Fits g p (x :: γ) δ :=
  h.advance_of_position hx (position_advance_of_short hs h.lookup hx)

-- A marker that is at the front again has passed the empty part of the body. The body of the augmenting
-- production is too short for that.
theorem advance (hg : g.Augmented) (h : c.Fits g p γ δ) (hx : c.next? g = some x) :
    ∃ δ', c.advance.Fits g p (x :: γ) δ' := by
  obtain hc | ⟨hc, hl⟩ := position_advance_cases (c := c)
  · exact ⟨δ, h.advance_of_position hx hc⟩
  · refine ⟨x :: γ, .start h.lookup hc fun (ha : c.production = .accept) => ?_⟩
    have ⟨q, hq, _, hb⟩ := hg.accept
    cases (ha ▸ h.lookup).symm.trans hq
    have := lt_of_next? h.lookup hx
    simp only [hb, List.length_singleton, UInt16.size] at this hl
    omega

-- The whole body has been passed.

theorem position_eq (h : c.Fits g p γ δ) (hn : c.next? g = none) : c.position.toNat = p.body.length := by
  rw [next?_eq h.lookup, List.getElem?_eq_none_iff] at hn
  exact Nat.le_antisymm h.position hn

theorem reduction (h : c.Fits g p γ δ) (hn : c.next? g = none) : γ = p.body.reverse ++ δ := by
  rw [h.spelled, h.position_eq hn, List.take_length]

end Fits

-- What a predicted production has passed is the empty part of its body.
theorem fits_predicted (hg : g.Augmented) {b : Center} (hp : p ∈ g.productions)
    (hb : b.next? g = some (.nonterminal p.head)) : (⟨p.id, 0⟩ : Center).Fits g p γ γ :=
  .start (hg.lookup p hp) rfl fun hi => absurd hi (predicted_ne_accept hg hp hb)

end Center

-- Whatever the top state of a stack holds fits to the string of the stack: it is the item of the root,
-- it has moved on from an item of the state before, or it has been predicted.
theorem Spine.fits (hg : g.Augmented) (ha : Canonical g a) {q : StateId} {below : List StateId}
    {γ : List Symbol} {s : State} {c : Center} (h : Spine a (q :: below) γ)
    (hs : a.state? q = some s) (hc : c ∈ s.items) : ∃ p δ, c.Fits g p γ δ := by
  refine h.state_induction (P := fun γ s => ∀ c ∈ s.items, ∃ p δ, c.Fits g p γ δ) ha
    ?root ?push hs c hc
  case root =>
    intro s hk hclosure c hc
    rw [hk] at hclosure
    cases hclosure.cases hc
    case inl hc =>
      obtain rfl := ItemSet.mem_rootKernel.mp hc
      have ⟨p, hp, _⟩ := hg.accept
      exact ⟨p, [], .start hp rfl fun _ => rfl⟩
    case inr hc =>
      obtain ⟨b, _, p, hp, hb, rfl⟩ := hc
      exact ⟨p, [], Center.fits_predicted hg hp hb⟩
  case push =>
    intro s t x γ hi _ hk hclosure c hc
    rw [hk] at hclosure
    cases hclosure.cases hc
    case inl hc =>
      obtain ⟨b, hb, hn, rfl⟩ := ItemSet.mem_advance.mp hc
      have ⟨p, _, hf⟩ := hi b hb
      exact ⟨p, hf.advance hg hn⟩
    case inr hc =>
      obtain ⟨b, _, p, hp, hb, rfl⟩ := hc
      exact ⟨p, x :: γ, Center.fits_predicted hg hp hb⟩

end CanonicalLR
