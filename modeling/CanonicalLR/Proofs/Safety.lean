import CanonicalLR.Proofs.Soundness

namespace CanonicalLR

section

open Automaton

variable {V : Type} {g : Grammar V} {a : Automaton} {q : StateId} {below stack : List StateId}
variable {s : State} {c : Center} {p : Production V}

namespace Center

-- The center has been predicted, in the state that lies below the part of the body that has been passed.
-- Nothing predicts the augmenting production, and the position in a long body does not tell what has been
-- passed.
def Awaited (g : Grammar V) (a : Automaton) (stack : List StateId) (c : Center) : Prop :=
  c.production ≠ .accept → ∀ p, g.production? c.production = some p → p.Short →
    ∃ base deeper s b, stack.drop c.position.toNat = base :: deeper ∧ a.state? base = some s ∧
      b ∈ s.items ∧ b.next? g = some (.nonterminal p.head)

namespace Awaited

theorem advance {x : Symbol} (h : c.Awaited g a stack) (hx : c.next? g = some x) :
    c.advance.Awaited g a (q :: stack) := by
  intro hn p hp hs
  rw [position_advance_of_short (c := c) hs hp hx]
  exact h hn p hp hs

theorem predicted {b : Center} (hg : g.Augmented) (hs : a.state? q = some s) (hb : b ∈ s.items)
    (hp : p ∈ g.productions) (hn : b.next? g = some (.nonterminal p.head)) :
    (⟨p.id, 0⟩ : Center).Awaited g a (q :: below) := by
  intro _ p' hp' _
  cases (hg.lookup p hp).symm.trans hp'
  exact ⟨q, below, s, b, rfl, hs, hb, hn⟩

theorem closure (hg : g.Augmented) (hs : a.state? q = some s)
    (hc : ItemSet.Closure g g.firstSets s.kernel s.items)
    (hk : ∀ c ∈ s.kernel, c.Awaited g a (q :: below)) : ∀ c ∈ s.items, c.Awaited g a (q :: below) := by
  intro c hm
  obtain hm | ⟨b, hb, p, hp, hn, rfl⟩ := hc.cases hm
  · exact hk c hm
  · exact predicted hg hs hb hp hn

end Awaited
end Center

theorem Spine.awaited {γ : List Symbol} (hg : g.Augmented) (ha : Canonical g a)
    (h : Spine a (q :: below) γ) (hs : a.state? q = some s) (hc : c ∈ s.items) :
    c.Awaited g a (q :: below) := by
  refine h.stack_induction (P := fun stack _ s => ∀ c ∈ s.items, c.Awaited g a stack) ha
    ?root ?push hs c hc
  case root =>
    intro s hs hk hclosure
    refine Center.Awaited.closure hg hs hclosure fun c hc hn => ?_
    rw [hk, ItemSet.mem_rootKernel] at hc
    exact absurd (congrArg Center.production hc) hn
  case push =>
    intro q q' below s t x _ hi ht _ hk hclosure
    refine Center.Awaited.closure hg ht hclosure fun c hc => ?_
    rw [hk] at hc
    obtain ⟨b, hb, hx, rfl⟩ := ItemSet.mem_advance.mp hc
    exact (hi b hb).advance hx

namespace Table

-- What a cell reduces can be popped, and the state below has a goto.
theorem exists_reduceStack {γ : List Symbol} {t : Terminal} {label : ProductionId}
    {head : Nonterminal} {length : Nat} (hg : g.Augmented) (ha : Canonical g a)
    (h : Spine a (q :: below) γ)
    (hact : (ofAutomaton g a).action? q t = some (.reduce label head length)) :
    ∃ stack, (ofAutomaton g a).machine.reduceStack head length (q :: below) = .ok stack := by
  obtain ⟨s, hs, c, p, hc, hn, hne, hp, rfl, rfl, rfl⟩ :=
    mem_actions_reduce.mp (mem_actions_of_action? hact)
  have ⟨_, _, hf⟩ := h.fits hg ha hs hc.mem
  cases hp.symm.trans hf.lookup
  have hl := hf.position_eq hn
  have hshort : p.body.length < UInt16.size := hl ▸ c.position.toNat_lt_size
  have ⟨base, deeper, r, b, hd, hr, hb, hhead⟩ := h.awaited hg ha hs hc.mem hne p hp hshort
  have ⟨next, _, hx, _⟩ := ha.exists_target_of_mem hg hr hb hhead
  have hgoto := goto?_eq_some.mpr ⟨r, hr, hx, b, hb, hhead⟩
  rw [hl] at hd
  exact ⟨_, Machine.reduceStack_eq_ok.mpr ⟨base, deeper, next, hd, hgoto, rfl⟩⟩

end Table

-- A machine that does not accept has come to the end of the tokens, or to one that it has no action for.
theorem Builds.fails_cases {tokens : List (Token Terminal)} {trees : List Tree} {e : ParseError}
    {c : Config StateId Terminal ProductionId} (hg : g.Augmented) (ha : Canonical g a)
    (h : Builds g a tokens c trees) (hf : (Table.ofAutomaton g a).machine.Fails c e) :
    c.rest = [] ∧ e = .tokensExhausted ∨
      ∃ top below token rest, c.stack = top :: below ∧ c.rest = token :: rest ∧
        (Table.ofAutomaton g a).action? top token.kind = none ∧
        e = .unexpectedToken token.lexeme token.position := by
  cases hf
  case empty =>
    have ⟨_, _, hs⟩ := h.spine.exists_cons
    contradiction
  case exhausted => exact .inl ⟨rfl, rfl⟩
  case unexpected top below token rest _ _ hact =>
    exact .inr ⟨top, below, token, rest, rfl, rfl, hact, rfl⟩
  case stuck hact hreduce =>
    have ⟨stack, hs⟩ := Table.exists_reduceStack hg ha h.spine hact
    rw [hs] at hreduce
    contradiction

namespace Table

variable {table : Table} {tokens : List (Token Terminal)} {limit : Nat} {e : ParseError}

theorem parse_error_cases {declarations : List (Declaration V)}
    (hg : Grammar.define declarations = .ok g) (ht : compile g = .ok table)
    (h : table.machine.parse? limit tokens = some (.error e)) :
    e = .tokensExhausted ∨
      ∃ token ∈ tokens, e = .unexpectedToken token.lexeme token.position := by
  have hg := Grammar.augmented_of_define hg
  obtain ⟨a, ha, rfl⟩ := compile_canonical ht
  have ⟨n, c, _, hr, hd⟩ := Step.reaches_of_run h
  have ⟨trees, hb⟩ := Builds.reaches hg ha hr
  obtain ⟨_, rfl⟩ | ⟨_, _, token, _, _, hrest, _, rfl⟩ :=
    hb.fails_cases hg ha (Machine.step_eq_error.mp hd)
  · exact .inl rfl
  · have hm : token ∈ c.rest := hrest ▸ List.mem_cons_self
    exact .inr ⟨token, (Machine.rest_suffix_of_reaches hr).mem hm, rfl⟩

end Table
end

namespace Example.DanglingElse

-- `if c then if c then o else o else`. The machine has given the first `else` to the outer `if`, so that
-- nothing is left for the second one.
def overrun : List (Token Terminal) := input.take 9 ++ [⟨"else", elseKeyword, ⟨1, 30⟩⟩]

theorem parse_overrun :
    table.machine.parse? 12 overrun = some (.error (.unexpectedToken "else" ⟨1, 30⟩)) := by rfl

end Example.DanglingElse

open Example.DanglingElse in
theorem Table.parse_error_cases_danglingElse :
    table.machine.parse? 12 overrun = some (.error (.unexpectedToken "else" ⟨1, 30⟩)) ∧
      (ParseError.unexpectedToken "else" ⟨1, 30⟩ = .tokensExhausted ∨ ∃ token ∈ overrun,
        ParseError.unexpectedToken "else" ⟨1, 30⟩ =
          .unexpectedToken token.lexeme token.position) :=
  ⟨parse_overrun, parse_error_cases define_eq compile_eq parse_overrun⟩

end CanonicalLR
