import CanonicalLR.Proofs.Safety
import CanonicalLR.Proofs.Completeness

namespace CanonicalLR

open CanonicalLR.Tree

namespace Machine

variable {σ τ ν ρ : Type} {m : Machine σ τ ν ρ} {c c' : Config σ τ ρ} {n : Nat}

-- The machine comes to shift the next token, or it stops.
def Passes (m : Machine σ τ ν ρ) (c : Config σ τ ρ) : Prop :=
  ∃ n c', Step.Reaches m.step n c c' ∧
    (c'.rest.length < c.rest.length ∨ ∃ r, m.step c' = .done r)

theorem Passes.of_done {r : Except ParseError (Output ρ)} (h : m.step c = .done r) : m.Passes c :=
  ⟨0, c, .refl c, .inr ⟨r, h⟩⟩

theorem Passes.of_reaches (h : Step.Reaches m.step n c c') (hr : c'.rest = c.rest)
    (hp : m.Passes c') : m.Passes c := by
  have ⟨k, d, hd, hs⟩ := hp
  exact ⟨n + k, d, h.trans hd, hr ▸ hs⟩

-- A machine that passes every token halts.
theorem exists_run_of_passes {P : Config σ τ ρ → Prop} (keep : ∀ c c', P c → m.step c = .next c' → P c')
    (pass : ∀ c, P c → m.Passes c) (h : P c) : ∃ limit r, Step.run m.step limit c = some r := by
  generalize hl : c.rest.length = left
  induction left using Nat.strongRecOn generalizing c
  case ind left hi =>
    have ⟨n, c', hr, hc⟩ := pass c h
    have ⟨limit, r, hrun⟩ : ∃ limit r, Step.run m.step limit c' = some r := by
      cases hc
      case inl hlt => exact hi _ (hl ▸ hlt) (hr.invariant keep h) rfl
      case inr hd =>
        have ⟨r, hd⟩ := hd
        exact ⟨1, r, by simp [Step.run, hd]⟩
    exact ⟨n + limit, r, hr.run.trans hrun⟩

end Machine

variable {V : Type} {g : Grammar V} {a : Automaton} {α β : List Symbol} {t u : Terminal}
variable {p : Production V}

namespace Grammar

-- How a string comes to begin with a terminal: a part in front of it vanishes, and what comes next is
-- replaced by bodies until it is the terminal.
inductive Begins (g : Grammar V) : List Symbol → Terminal → Prop
  | terminal (t : Terminal) (α : List Symbol) : Begins g (t :: α) t
  | skip {x : Symbol} {α : List Symbol} {t : Terminal} (vanish : g.Derives [x] [])
    (rec : Begins g α t) : Begins g (x :: α) t
  | enter {p : Production V} {t : Terminal} (α : List Symbol) (mem : p ∈ g.productions)
    (rec : Begins g p.body t) : Begins g (.nonterminal p.head :: α) t

namespace Begins

theorem append_cases (h : g.Begins (α ++ β) t) :
    g.Begins α t ∨ g.Derives α [] ∧ g.Begins β t := by
  induction α
  case nil => exact .inr ⟨.refl, h⟩
  case cons x α hi =>
    cases h
    case terminal => exact .inl (.terminal ..)
    case skip hx h =>
      refine (hi h).imp (.skip hx) fun ⟨hα, h⟩ => ⟨?_, h⟩
      exact hx.append hα
    case enter hp h => exact .inl (.enter α hp h)

theorem of_produces (hp : g.Produces α β) (h : g.Begins β t) : g.Begins α t := by
  have ⟨l, r, hp⟩ := hp
  induction l
  case nil =>
    obtain h | ⟨hb, h⟩ := append_cases h
    · exact .enter _ hp h
    · exact .skip ((Derives.production hp).trans hb) h
  case cons x l hi =>
    cases h
    case terminal => exact .terminal ..
    case skip hx h => exact .skip hx (hi h)
    case enter hq h => exact .enter _ hq h

theorem of_derives (h : g.Derives α (t :: β)) : g.Begins α t := by
  induction h using Relation.ReflTransGen.head_induction_on
  case refl => exact .terminal ..
  case head hp _ hi => exact of_produces hp hi

theorem exists_derives (h : g.Begins α t) : ∃ β, g.Derives α (t :: β) := by
  induction h
  case terminal t α => exact ⟨α, .refl⟩
  case skip hx _ hi =>
    have ⟨β, hβ⟩ := hi
    exact ⟨β, hx.append hβ⟩
  case enter α hp _ hi =>
    have ⟨β, hβ⟩ := hi
    exact ⟨β ++ α, ((Derives.production hp).trans hβ).append_right (γ := α)⟩

end Begins
end Grammar

-- A nonterminal that vanishes has a tree without leaves.
theorem Tree.exists_of_vanishes {x : Symbol} (hg : g.Augmented) (h : g.Derives [x] []) :
    ∃ (p : Production V) (ts : List Tree), x = .nonterminal p.head ∧ g.production? p.id = some p ∧
      p.body = ts.map symbol ∧ (∀ t ∈ ts, t.WellFormed g) ∧ yieldAll ts = [] := by
  have ⟨us, hu, hy⟩ := Forest.of_derives_word (w := []) hg h
  obtain ⟨tree, rfl, rfl⟩ := List.map_eq_singleton_iff.mp hu.symbols
  have hw := hu.wellFormed tree (by simp)
  cases hw
  case leaf => simp [yieldAll, yield] at hy
  case node p ts hp hb hts => exact ⟨p, ts, rfl, hp, hb, hts, by simpa [yieldAll, yield] using hy⟩

section

open Automaton

variable {q top : StateId} {below stack : List StateId} {s : State} {c : Center}
variable {token : Token Terminal}

theorem Center.mem_first_rest (hg : g.Augmented) (h : g.Begins (c.rest g) t) :
    t ∈ (g.firstSets.sequence (c.rest g)).terminals := by
  have ⟨β, hd⟩ := h.exists_derives
  exact hd.mem_sequence hg.scoped (hd.declares hg.scoped (fun _ => declares_rest hg) t List.mem_cons_self)

-- If what comes after the marker begins with the next token, the machine comes to shift the token.
theorem Machine.passes_of_begins (rest : List (Token Terminal)) (labels : List ProductionId)
    (operations : List Operation) (hg : g.Augmented) (hl : g.Short) (ha : Canonical g a)
    (hc : (Table.ofAutomaton g a).conflicts = []) (hs : a.state? top = some s) (hm : c ∈ s.items)
    (hp : g.production? c.production = some p)
    (hb : g.Begins (p.body.drop c.position.toNat) token.kind) :
    (Table.ofAutomaton g a).machine.Passes ⟨top :: below, token :: rest, labels, operations⟩ := by
  generalize hα : p.body.drop c.position.toNat = α at hb
  generalize ht : token.kind = t at hb
  induction hb generalizing top below labels operations s c p
  case terminal t α =>
    have ⟨hn, _⟩ := Center.next?_of_drop_eq hp hα
    have ⟨q, _, hq, _⟩ := ha.exists_target_of_mem hg hs hm hn
    have hact := Table.action?_of_mem hc <| Table.mem_actions_shift.mpr ⟨s, hs, hq, c, hm, hn⟩
    rw [← ht] at hact
    exact ⟨1, _, .single <| step_eq_next.mpr <| .shift hact, .inl (Nat.lt_succ_self _)⟩
  case skip x α t hx hb hi =>
    have ⟨hn, hrest⟩ := Center.next?_of_drop_eq hp hα
    obtain ⟨r, ts, rfl, hr, hbody, hts, hy⟩ := Tree.exists_of_vanishes hg hx
    have hfirst := Center.mem_first_rest hg (hrest ▸ hb : g.Begins (c.rest g) t)
    have hr' := Grammar.mem_productionsOf.mpr ⟨Grammar.production?_mem hr, rfl⟩
    have hheld := (ha.closure hs).predicted_first hm hn hr' hfirst
    have hempty : ([] : List (Token Terminal)).map Token.kind = yieldAll ts := hy.symm
    have ⟨q, hq, hreach⟩ := reaches_node below rest labels operations hg
      (hl.production? hr) ha hc hr hbody hts (fun t h => (hts t h).followed hg hl ha hc) hs hm hn (ht ▸ hheld)
      hempty
    have ⟨_, s', hq', hs', hm', _⟩ := ha.exists_target_of_mem hg hs hm hn
    cases hq.symm.trans hq'
    exact .of_reaches hreach rfl (hi _ _ hs' hm' hp (Center.drop_advance (hl.production? hp) hα) ht)
  case enter r t α hr hb hi =>
    have ⟨hn, _⟩ := Center.next?_of_drop_eq hp hα
    have hm := (ha.closure hs).predicted hm hn (Grammar.mem_productionsOf.mpr ⟨hr, rfl⟩)
    exact hi labels operations hs hm (hg.lookup r hr) rfl ht

namespace Center

-- A reduction grows or shrinks the stack, so no measure of the configuration decreases. But there are only finitely
-- many predictions below an item. A reduction is made in front of a terminal that has been predicted to come next:
-- either the rest of the body that waits for the head begins with it, or this rest vanishes and the terminal has
-- been predicted to come after that body, one prediction earlier. So the induction is on the predictions, and says
-- that however the body of the production comes to lie above the stack, the machine goes on from there to pass the
-- terminal.
def Resolves (g : Grammar V) (a : Automaton) (stack : List StateId) (c : Center) (t : Terminal) : Prop :=
  ∀ (rest : List (Token Terminal)) (labels : List ProductionId) (operations : List Operation)
    {p : Production V} {n : Nat} {top : StateId} {below : List StateId} {s : State}
    {token : Token Terminal},
    g.production? c.production = some p → c.position.toNat + n = p.body.length →
    (top :: below).drop n = stack → a.state? top = some s →
    s.items.Holds (c.skip n) t → token.kind = t →
    (Table.ofAutomaton g a).machine.Passes ⟨top :: below, token :: rest, labels, operations⟩

namespace Resolves

-- The machine accepts.
theorem accept (hl : g.Short) (hc : (Table.ofAutomaton g a).conflicts = []) (h : c.production = .accept) :
    c.Resolves g a stack .eof := by
  intro rest labels operations p n top below s token hp hn _ hs hh ht
  have hact := Table.action?_of_mem hc <| Table.mem_actions_accept.mpr
    ⟨ht, s, hs, _, hh.mem, h, next?_skip_eq_none (hl.production? hp) hp hn⟩
  exact .of_done <| Machine.step_eq_ok.mpr ⟨top, below, token, rest, rfl, rfl, hact, rfl⟩

theorem advance {x : Symbol} (hg : g.Short) (h : c.Resolves g a stack t) (hx : c.next? g = some x) :
    c.advance.Resolves g a (q :: stack) t := by
  intro rest labels operations p n top below s token hp hl hd hs hh ht
  refine h rest labels operations (n := n + 1) hp ?_ ?_ hs (skip_advance ▸ hh) ht
  · rw [← hl, position_advance_of_short (c := c) (hg.production? hp) hp hx, Nat.add_assoc, Nat.add_comm 1]
  · rw [← List.tail_drop, hd, List.tail_cons]

-- The body is reduced. Then the terminal begins the rest of the body that has been waiting, or this rest
-- vanishes, so that this body is next to be reduced.
theorem predicted (hg : g.Augmented) (hshort : g.Short) (ha : Canonical g a)
    (hc : (Table.ofAutomaton g a).conflicts = []) (hs : a.state? q = some s) (hm : c ∈ s.items)
    (hn : c.next? g = some (.nonterminal p.head)) (hp : p ∈ g.productions)
    (h : g.Begins (c.rest g) t ∨
      g.Derives (c.rest g) [] ∧ s.items.Holds c t ∧ c.Resolves g a (q :: below) t) :
    (⟨p.id, 0⟩ : Center).Resolves g a (q :: below) t := by
  intro rest labels operations p' n top below' s' token hp' hl hd hs' hh ht
  cases hp'.symm.trans (hg.lookup p hp)
  obtain rfl : n = p.body.length := by simpa using hl
  have hreduce := Table.action?_of_mem hc <| Table.mem_actions_reduce.mpr
    ⟨s', hs', _, p, hh, next?_skip_eq_none (hshort p hp) hp' hl, predicted_ne_accept hg hp hn, hp',
      rfl, rfl, rfl⟩
  have ⟨next, r, hx, hr, hm', hadvance⟩ := ha.exists_target_of_mem hg hs hm hn
  have hgoto := Table.goto?_eq_some.mpr ⟨s, hs, hx, c, hm, hn⟩
  have hmove : (Table.ofAutomaton g a).machine.Moves
      ⟨top :: below', token :: rest, labels, operations⟩
      ⟨next :: q :: below, token :: rest, p.id :: labels, .reduce :: operations⟩ :=
    .reduce (ht ▸ hreduce) hd hgoto
  refine .of_reaches (.single (Machine.step_eq_next.mpr hmove)) rfl ?_
  have ⟨b, hb, hdrop⟩ := exists_drop_eq hn
  have hb' := hshort.production? hb
  have hrest : b.body.drop c.advance.position.toNat = c.rest g := drop_advance hb' hdrop
  obtain hbegins | ⟨hvanish, hheld, hresolves⟩ := h
  · exact Machine.passes_of_begins rest _ _ hg hshort ha hc hr hm' hb (by rwa [hrest, ht])
  · have ⟨ts, hf, hy⟩ := Forest.of_derives_word (w := []) hg hvanish
    have hempty : ([] : List (Token Terminal)).map Token.kind = yieldAll ts := hy.symm
    have hheld : r.items.Holds c.advance token.kind := ht ▸ hadvance t hheld
    have ⟨top', below'', s'', hd', hs'', hh'', hreach⟩ := followed_forest (c := c.advance)
      (q :: below) rest (p.id :: labels) (.reduce :: operations) hg hb' ha hf.wellFormed
      (fun t h => (hf.wellFormed t h).followed hg hshort ha hc) hb (hrest.trans hf.symbols.symm) hr hheld hempty
    have hlength : c.position.toNat + (ts.length + 1) = b.body.length := by
      have h₁ := congrArg List.length hdrop
      have h₂ := congrArg List.length hf.symbols
      rw [List.length_drop, List.length_cons] at h₁
      rw [List.length_map] at h₂
      omega
    refine .of_reaches hreach rfl (hresolves rest _ _ hb hlength ?_ hs'' ?_ ht)
    · rw [← List.tail_drop, hd', List.tail_cons]
    · exact ht ▸ skip_advance ▸ hh''

-- The closure only adds what has been predicted.
theorem closure (hg : g.Augmented) (hshort : g.Short) (ha : Canonical g a)
    (hc : (Table.ofAutomaton g a).conflicts = []) (hs : a.state? q = some s)
    (hk : ∀ c t, s.kernel.Holds c t → c.Resolves g a (q :: below) t) :
    ∀ c t, s.items.Holds c t → c.Resolves g a (q :: below) t := by
  have hclosure := ha.closure hs
  have found (i : Item) (hi : i.Found g g.firstSets s.kernel.items) :
      ∀ t ∈ i.lookaheads, i.center.Resolves g a (q :: below) t := by
    induction hi
    case given i hi => exact fun t ht => hk _ t ⟨i, hi, rfl, ht⟩
    case predicted i j is hi he hj ih =>
      obtain ⟨n, hn, p, hp, rfl⟩ := (Item.mem_expand he).mp hj
      obtain ⟨hm, rfl⟩ := Grammar.mem_productionsOf.mp hp
      intro t ht
      refine predicted hg hshort ha hc hs ((hclosure.mem _).mpr ⟨i, hi, rfl⟩) hn hm ?_
      refine (FirstSets.mem_localFirst.mp ht).imp ?_ ?_
      case _ =>
        intro ht
        have ⟨β, hβ⟩ := Grammar.sound_firstSets.sequence ht
        exact .of_derives hβ
      case _ =>
        intro ⟨he, ht⟩
        exact ⟨Grammar.sound_firstSets.epsilon he, (hclosure.holds ..).mpr ⟨i, hi, rfl, ht⟩, ih t ht⟩
  intro c t hh
  obtain ⟨i, hi, rfl, ht⟩ := (hclosure.holds c t).mp hh
  exact found i hi t ht

end Resolves
end Center

theorem Spine.resolves {γ : List Symbol} (hg : g.Augmented) (hshort : g.Short) (ha : Canonical g a)
    (hc : (Table.ofAutomaton g a).conflicts = []) (h : Spine a (q :: below) γ)
    (hs : a.state? q = some s) (hh : s.items.Holds c t) : c.Resolves g a (q :: below) t := by
  refine h.stack_induction
    (P := fun stack _ s => ∀ c t, s.items.Holds c t → c.Resolves g a stack t) ha ?root ?push hs c t hh
  case root =>
    intro s hs hk _
    refine Center.Resolves.closure hg hshort ha hc hs fun c t hh => ?_
    obtain ⟨rfl, rfl⟩ := ItemSet.holds_rootKernel.mp (hk ▸ hh)
    exact .accept hshort hc rfl
  case push =>
    intro q q' below s s' x _ hi hs' _ hk _
    refine Center.Resolves.closure hg hshort ha hc hs' fun c t hh => ?_
    obtain ⟨b, hb, hx, rfl⟩ := ItemSet.holds_advance.mp (hk ▸ hh)
    exact (hi b t hb).advance hshort hx

-- A configuration that is reached from the start comes to shift the next token, or it stops.
theorem Builds.passes {tokens : List (Token Terminal)} {trees : List Tree}
    {c : Config StateId Terminal ProductionId} (hg : g.Augmented) (hshort : g.Short) (ha : Canonical g a)
    (hc : (Table.ofAutomaton g a).conflicts = []) (h : Builds g a tokens c trees) :
    (Table.ofAutomaton g a).machine.Passes c := by
  cases hstep : (Table.ofAutomaton g a).machine.step c
  case done r => exact .of_done hstep
  case next c' =>
    cases Machine.step_eq_next.mp hstep
    case shift => exact ⟨1, _, .single hstep, .inl (Nat.lt_succ_self _)⟩
    case reduce token rest _ labels operations _ _ hact _ _ =>
      obtain ⟨s, hs, c, p, hh, hn, _, hp, rfl, rfl, rfl⟩ :=
        Table.mem_actions_reduce.mp (Table.mem_actions_of_action? hact)
      have ⟨_, _, hf⟩ := h.spine.fits hg ha hs hh.mem
      cases hp.symm.trans hf.lookup
      have hl := hf.position_eq hn
      have hr := h.spine.resolves hg hshort ha hc hs hh
      exact hr rest labels operations (n := 0) hp hl rfl hs (c.skip_zero.symm ▸ hh) rfl

theorem Table.exists_run {tokens : List (Token Terminal)}
    {c : Config StateId Terminal ProductionId} {n : Nat} (hg : g.Augmented) (hs : g.Short)
    (ha : Canonical g a) (hc : (ofAutomaton g a).conflicts = [])
    (h : Step.Reaches (ofAutomaton g a).machine.step n ((ofAutomaton g a).machine.start tokens) c) :
    ∃ limit r, Step.run (ofAutomaton g a).machine.step limit c = some r := by
  refine Machine.exists_run_of_passes (P := fun c => ∃ trees, Builds g a tokens c trees)
    ?keep ?pass (Builds.reaches hg ha h)
  case keep => exact fun _ _ ⟨_, hb⟩ hs => hb.moves hg ha (Machine.step_eq_next.mp hs)
  case pass => exact fun _ ⟨_, hb⟩ => hb.passes hg hs ha hc

end

end CanonicalLR
