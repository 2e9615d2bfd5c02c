import CanonicalLR.Proofs.Machine

namespace CanonicalLR.Machine

variable {σ τ ν ρ : Type} {m : Machine σ τ ν ρ} {n : Nat} {x : τ} {w : List τ} {q : σ}
variable {stack stack' : List σ} {tokens shifted rest : List (Token τ)} {c c' : Config σ τ ρ}

-- A number of reductions in front of a terminal.
inductive Reduces (m : Machine σ τ ν ρ) (x : τ) : Nat → List σ → List σ → Prop
  | refl (stack : List σ) : Reduces m x 0 stack stack
  | next {n : Nat} {top : σ} {below middle stack : List σ} {label : ρ} {head : ν} {length : Nat}
    (action : m.action top x = some (.reduce label head length))
    (reduce : m.reduceStack head length (top :: below) = .ok middle)
    (tail : Reduces m x n middle stack) : Reduces m x (n + 1) (top :: below) stack

-- The machine has shifted the string, the latest terminal of which comes first.
inductive Leads (m : Machine σ τ ν ρ) : List τ → List σ → Prop
  | start : Leads m [] [m.initial]
  | shift {w : List τ} {x : τ} {n : Nat} {top next : σ} {stack below : List σ} (rec : Leads m w stack)
    (reduces : m.Reduces x n stack (top :: below)) (action : m.action top x = some (.shift next)) :
    Leads m (x :: w) (next :: top :: below)

-- In front of the last one of the tokens, the machine comes to the state.
def Visits (m : Machine σ τ ν ρ) (tokens : List (Token τ)) (q : σ) : Prop :=
  ∃ n c below token, Step.Reaches m.step n (m.start tokens) c ∧ c.stack = q :: below ∧ c.rest = [token]

theorem Reduces.concat {top : σ} {below : List σ} {label : ρ} {head : ν} {length : Nat}
    (h : m.Reduces x n stack (top :: below))
    (action : m.action top x = some (.reduce label head length))
    (reduce : m.reduceStack head length (top :: below) = .ok stack') : m.Reduces x (n + 1) stack stack' := by
  generalize hs : top :: below = last at h reduce
  induction h
  case refl =>
    subst hs
    exact .next action reduce (.refl _)
  case next ha hr _ hi => exact .next ha hr (hi hs reduce)

-- There is one stack for the lookahead to be shifted on.
theorem Reduces.unique {k : Nat} {top top' next next' : σ} {below below' : List σ}
    (h : m.Reduces x n stack (top :: below)) (ha : m.action top x = some (.shift next))
    (h' : m.Reduces x k stack (top' :: below')) (ha' : m.action top' x = some (.shift next')) :
    top :: below = top' :: below' := by
  generalize hs : top :: below = last at h
  induction h generalizing k
  case refl =>
    subst hs
    cases h'
    case refl => rfl
    case next hr _ _ => exact absurd (hr.symm.trans ha) (by simp)
  case next hr hm _ hi =>
    cases h'
    case refl => exact absurd (hr.symm.trans ha') (by simp)
    case next hr' hm' h' =>
      cases hr.symm.trans hr'
      cases hm.symm.trans hm'
      exact hi h' hs

theorem Leads.unique (h : m.Leads w stack) (h' : m.Leads w stack') : stack = stack' := by
  induction h generalizing stack'
  case start =>
    cases h'
    rfl
  case shift hr ha hi =>
    cases h'
    case shift hr' ha' hl' =>
      obtain rfl := hi hl'
      cases hr.unique ha hr' ha'
      cases ha.symm.trans ha'
      rfl

theorem Leads.exists_cons (h : m.Leads w stack) : ∃ top below, stack = top :: below := by
  cases h
  case start => exact ⟨_, _, rfl⟩
  case shift => exact ⟨_, _, rfl⟩

-- The machine takes the same steps, whatever comes after the lookahead.

theorem Reduces.reaches {token : Token τ} (rest : List (Token τ)) (labels : List ρ)
    (operations : List Operation) (h : m.Reduces x n stack stack') (hk : token.kind = x) :
    ∃ labels' operations', Step.Reaches m.step n ⟨stack, token :: rest, labels, operations⟩
      ⟨stack', token :: rest, labels', operations'⟩ := by
  induction h generalizing labels operations
  case refl => exact ⟨labels, operations, .refl _⟩
  case next label _ _ ha hr _ hi =>
    obtain ⟨base, deeper, next, hd, hg, rfl⟩ := reduceStack_eq_ok.mp hr
    have hm : m.Moves ⟨_, token :: rest, labels, operations⟩ _ := .reduce (hk ▸ ha) hd hg
    have ⟨_, _, h⟩ := hi (label :: labels) (.reduce :: operations)
    exact ⟨_, _, .next (step_eq_next.mpr hm) h⟩

theorem Leads.reaches (rest : List (Token τ)) (h : m.Leads w stack)
    (hw : shifted.map Token.kind = w.reverse) :
    ∃ n labels operations,
      Step.Reaches m.step n (m.start (shifted ++ rest)) ⟨stack, rest, labels, operations⟩ := by
  induction h generalizing shifted rest
  case start =>
    obtain rfl := List.map_eq_nil_iff.mp hw
    exact ⟨0, [], [], .refl _⟩
  case shift w x n top next stack below _ hreduces ha hi =>
    rw [List.reverse_cons] at hw
    obtain ⟨before, _, rfl, hbefore, hlast⟩ := List.map_eq_append_iff.mp hw
    obtain ⟨token, rfl, hk⟩ := List.map_eq_singleton_iff.mp hlast
    have ⟨k, labels, operations, hr⟩ := hi (token :: rest) hbefore
    have ⟨labels', operations', hr'⟩ := hreduces.reaches rest labels operations hk
    have hm : m.Moves ⟨top :: below, token :: rest, labels', operations'⟩ _ := .shift (hk ▸ ha)
    rw [List.append_assoc]
    exact ⟨_, _, _, (hr.trans hr').trans (.single (step_eq_next.mpr hm))⟩

-- Where the machine stands: it has shifted a string, and it has reduced in front of the next token.
structure Stands (m : Machine σ τ ν ρ) (tokens : List (Token τ)) (c : Config σ τ ρ) (w : List τ)
    (stack : List σ) : Prop where
  leads : m.Leads w stack
  kinds : tokens.map Token.kind = w.reverse ++ c.rest.map Token.kind
  reduces : ∀ token rest, c.rest = token :: rest → ∃ n, m.Reduces token.kind n stack c.stack

namespace Stands

theorem of_leads (h : m.Leads w c.stack) (hk : tokens.map Token.kind = w.reverse ++ c.rest.map Token.kind) :
    m.Stands tokens c w c.stack :=
  ⟨h, hk, fun _ _ _ => ⟨0, .refl _⟩⟩

theorem moves (h : m.Stands tokens c w stack) (hm : m.Moves c c') :
    ∃ w' stack', m.Stands tokens c' w' stack' := by
  cases hm
  case shift token rest _ _ ha =>
    have ⟨n, hr⟩ := h.reduces token rest rfl
    exact ⟨token.kind :: w, _, .of_leads (h.leads.shift hr ha) (by simpa using h.kinds)⟩
  case reduce token rest _ _ _ _ _ ha hd hg =>
    have ⟨n, hr⟩ := h.reduces token rest rfl
    refine ⟨w, stack, h.leads, h.kinds, fun _ _ he => ?_⟩
    cases he
    exact ⟨n + 1, hr.concat ha (reduceStack_eq_ok.mpr ⟨_, _, _, hd, hg, rfl⟩)⟩

theorem exists_of_reaches (h : Step.Reaches m.step n (m.start tokens) c) :
    ∃ w stack, m.Stands tokens c w stack :=
  h.invariant (P := fun c => ∃ w stack, m.Stands tokens c w stack)
    (fun _ _ ⟨_, _, h⟩ hs => h.moves (step_eq_next.mp hs)) ⟨[], _, .of_leads .start rfl⟩

end Stands

theorem visits_iff (hk : tokens.map Token.kind = w.reverse ++ [x]) :
    m.Visits tokens q ↔ ∃ stack n below, m.Leads w stack ∧ m.Reduces x n stack (q :: below) := by
  constructor
  case mp =>
    intro ⟨_, c, below, token, hr, hs, hrest⟩
    have ⟨w', stack, h⟩ := Stands.exists_of_reaches hr
    have hkinds := hk.symm.trans h.kinds
    rw [hrest, List.map_singleton] at hkinds
    obtain ⟨hw, hx⟩ := List.append_inj' hkinds rfl
    have ⟨n, hn⟩ := h.reduces token [] hrest
    rw [List.reverse_inj.mp hw, List.singleton_inj.mp hx]
    exact ⟨stack, n, below, h.leads, hs ▸ hn⟩
  case mpr =>
    intro ⟨stack, n, below, hl, hn⟩
    obtain ⟨shifted, _, rfl, hshifted, hlast⟩ := List.map_eq_append_iff.mp hk
    obtain ⟨token, rfl, hx⟩ := List.map_eq_singleton_iff.mp hlast
    have ⟨_, labels, operations, hr⟩ := hl.reaches [token] hshifted
    have ⟨_, _, hr'⟩ := hn.reaches [] labels operations hx
    exact ⟨_, _, below, token, hr.trans hr', rfl, rfl⟩

end CanonicalLR.Machine
