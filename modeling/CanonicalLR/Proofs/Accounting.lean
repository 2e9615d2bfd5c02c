import CanonicalLR.Proofs.Machine
import Mathlib.Algebra.Ring.Int.Defs

namespace CanonicalLR

variable {σ τ ν ρ : Type}

namespace ParseError

-- The error of the same kind at another token.
def citing (token : Token τ) : ParseError → ParseError
  | unexpectedToken _ _ => unexpectedToken token.lexeme token.position
  | e => e

end ParseError

-- The index of the next token.
def Config.cursor (tokens : List (Token τ)) (c : Config σ τ ρ) : Nat :=
  tokens.length - c.rest.length

namespace Machine

-- The operation that a configuration calls for.
def operation? (m : Machine σ τ ν ρ) (c : Config σ τ ρ) : Option Operation :=
  match m.lookup? c with
  | some (some (.shift _)) => some .shift
  | some (some (.reduce _ _ _)) => some .reduce
  | _ => none

-- The reduction that a configuration calls for, with the number of states that it pops.
def reduction? (m : Machine σ τ ν ρ) (c : Config σ τ ρ) : Option (ρ × Nat) :=
  match m.lookup? c with
  | some (some (.reduce label _ length)) => some (label, length)
  | _ => none

-- A configuration in terms of those before it.
structure Accounts (m : Machine σ τ ν ρ) (tokens : List (Token τ)) (before : List (Config σ τ ρ))
    (c : Config σ τ ρ) : Prop where
  stack : c.stack ≠ []
  operations : before.map m.operation? = c.operations.reverse.map some
  reductions : (before.filterMap m.reduction?).map Prod.fst = c.reductions.reverse
  height : (c.stack.length : Int) = 1 + c.operations.count .shift +
    ((before.filterMap m.reduction?).map fun r => 1 - (r.snd : Int)).sum
  cursor : c.cursor tokens = c.operations.count .shift
  rest : c.rest = tokens.drop (c.cursor tokens)
  count : c.reductions.length = c.operations.count .reduce

-- A run that stops at the `k`-th token.
structure Stops (m : Machine σ τ ν ρ) (limit : Nat) (tokens : List (Token τ)) (k : Nat)
    (r : Except ParseError (Output ρ)) : Prop where
  result : m.parse? limit tokens = some r
  cursor : ∃ c, (m.configs limit tokens).getLast? = some c ∧ c.cursor tokens = k

variable {m : Machine σ τ ν ρ} {c c' d : Config σ τ ρ} {tokens others : List (Token τ)} {token : Token τ}
variable {rest : List (Token τ)} {out : Output ρ}
variable {before after : List (Config σ τ ρ)} {limit k n : Nat} {r : Except ParseError (Output ρ)}

namespace Accounts

theorem start : m.Accounts tokens [] (m.start tokens) where
  stack := List.cons_ne_nil _ _
  operations := rfl
  reductions := rfl
  height := rfl
  cursor := Nat.sub_self _
  rest := by simp [Config.cursor, Machine.start]
  count := rfl

theorem shift (h : m.Accounts tokens before c) (hs : c.rest = token :: rest) {next : σ}
    (hl : m.lookup? c = some (some (.shift next))) :
    m.Accounts tokens (before ++ [c]) ⟨next :: c.stack, rest, c.reductions, .shift :: c.operations⟩ := by
  have ho : m.operation? c = some .shift := by rw [operation?, hl]
  have hr : m.reduction? c = none := by rw [reduction?, hl]
  have hlength : rest.length + 1 ≤ tokens.length := by
    rw [← List.length_cons (a := token), ← hs, h.rest, List.length_drop]
    exact Nat.sub_le ..
  have hcursor : tokens.length - rest.length = c.cursor tokens + 1 := by
    rw [Config.cursor, hs, List.length_cons]
    omega
  constructor
  case stack => exact List.cons_ne_nil _ _
  case operations => simp [h.operations, ho]
  case reductions => simp [h.reductions, hr]
  case height =>
    have := h.height
    simp only [List.filterMap_append, List.filterMap_cons_none hr, List.filterMap_nil, List.append_nil,
      List.length_cons, List.count_cons_self]
    omega
  case cursor => rw [Config.cursor, hcursor, h.cursor, List.count_cons_self]
  case rest => rw [Config.cursor, hcursor, ← List.tail_drop, ← h.rest, hs, List.tail_cons]
  case count => simpa using h.count

theorem reduce (h : m.Accounts tokens before c) {base next : σ} {deeper : List σ} {label : ρ} {head : ν}
    {length : Nat} (hd : c.stack.drop length = base :: deeper)
    (hl : m.lookup? c = some (some (.reduce label head length))) :
    m.Accounts tokens (before ++ [c])
      ⟨next :: base :: deeper, c.rest, label :: c.reductions, .reduce :: c.operations⟩ := by
  have ho : m.operation? c = some .reduce := by rw [operation?, hl]
  have hr : m.reduction? c = some (label, length) := by rw [reduction?, hl]
  have hheight : c.stack.length - length = deeper.length + 1 := by
    rw [← List.length_drop, hd, List.length_cons]
  constructor
  case stack => exact List.cons_ne_nil _ _
  case operations => simp [h.operations, ho]
  case reductions => simp [h.reductions, hr]
  case height =>
    have := h.height
    simp only [List.filterMap_append, List.filterMap_cons_some hr, List.filterMap_nil, List.map_append,
      List.map_cons, List.map_nil, List.sum_append_int, List.sum_cons, List.sum_nil, List.length_cons,
      List.count_cons_of_ne (show Operation.reduce ≠ .shift by decide)]
    omega
  case cursor => simpa [Config.cursor] using h.cursor
  case rest => exact h.rest
  case count => simpa using h.count

theorem moves (h : m.Accounts tokens before c) (hm : m.Moves c c') : m.Accounts tokens (before ++ [c]) c' := by
  cases hm
  case shift ha => exact h.shift rfl (lookup?_eq_some.mpr ⟨_, _, _, _, rfl, rfl, ha⟩)
  case reduce ha hd hg => exact h.reduce hd (lookup?_eq_some.mpr ⟨_, _, _, _, rfl, rfl, ha⟩)

-- Every configuration before has called for an operation.
theorem isSome_lookup? (h : m.Accounts tokens before c) {b : Config σ τ ρ} (hb : b ∈ before) :
    (m.lookup? b).isSome := by
  have hm : m.operation? b ∈ c.operations.reverse.map some := h.operations ▸ List.mem_map_of_mem hb
  obtain ⟨_, _, ho⟩ := List.mem_map.mp hm
  cases hl : m.lookup? b
  case none => simp [operation?, hl] at ho
  case some => rfl

theorem length_before (h : m.Accounts tokens before c) : before.length = c.operations.length := by
  simpa using congrArg List.length h.operations

theorem cursor_next (h : m.Accounts tokens before c) (hs : c.rest = token :: rest) :
    tokens[c.cursor tokens]? = some token := by
  rw [← List.head?_drop, ← h.rest, hs, List.head?_cons]

end Accounts

theorem accounts_of_configs (h : m.configs limit tokens = before ++ c :: after) : m.Accounts tokens before c :=
  Step.states_invariant (P := m.Accounts tokens) (fun _ _ _ hp hs => hp.moves (step_eq_next.mp hs)) .start h

theorem accounts_of_getLast? (h : (m.configs limit tokens).getLast? = some c) :
    ∃ before, m.configs limit tokens = before ++ [c] ∧ m.Accounts tokens before c := by
  have ⟨before, hb⟩ := List.getLast?_eq_some_iff.mp h
  exact ⟨before, hb, accounts_of_configs hb⟩

theorem lookups_eq (hb : m.configs limit tokens = before ++ [c]) (hs : c.rest = token :: rest) :
    m.lookups limit tokens = c.operations.length + 1 := by
  have ha := accounts_of_configs hb
  obtain ⟨top, below, hc⟩ := List.exists_cons_of_ne_nil ha.stack
  have hl : (m.lookup? c).isSome := by simp [lookup?, hc, hs]
  rw [lookups, hb, List.countP_append, List.countP_eq_length.mpr fun b hb => ha.isSome_lookup? hb,
    List.countP_singleton, if_pos hl, ha.length_before]

theorem exists_reaches_of_parse? (h : m.parse? limit tokens = some r) : ∃ n c, n < limit ∧
    Step.Reaches m.step n (m.start tokens) c ∧ m.step c = .done r ∧
    (m.configs limit tokens).getLast? = some c := by
  have ⟨n, c, hn, hr, hd⟩ := Step.reaches_of_run h
  exact ⟨n, c, hn, hr, hd, hr.getLast?_states hd hn⟩

theorem Stops.of_reaches (h : Step.Reaches m.step n (m.start tokens) c) (hd : m.step c = .done r)
    (hn : n < limit) : m.Stops limit tokens (c.cursor tokens) r where
  result := by
    obtain ⟨k, rfl⟩ := Nat.exists_eq_add_of_lt hn
    rw [parse?, Nat.add_assoc, h.run, Step.run, hd]
  cursor := ⟨c, h.getLast?_states hd hn, rfl⟩

-- A run stops for lack of tokens unless a token is next.
theorem exists_next_of_step (hs : c.stack ≠ []) (hd : m.step c = .done r) (hr : r ≠ .error .tokensExhausted) :
    ∃ token rest, c.rest = token :: rest := by
  obtain ⟨stack, _ | ⟨token, rest⟩, labels, operations⟩ := c
  case cons => exact ⟨token, rest, rfl⟩
  case nil =>
    obtain ⟨top, below, rfl⟩ := List.exists_cons_of_ne_nil hs
    cases hd
    contradiction

-- How a run stops depends on the token that is next, except for its text and position.
theorem Alike.done {left : Nat} {token' : Token τ} {rest' : List (Token τ)} (h : Alike left c d)
    (hc : c.rest = token :: rest) (hd : d.rest = token' :: rest') (hk : token.kind = token'.kind)
    (hr : m.step c = .done r) : m.step d = .done (r.mapError (·.citing token')) := by
  have ⟨stack, _, labels, operations⟩ := d
  obtain ⟨stack', _, labels', operations'⟩ := c
  cases h.stack; cases h.reductions; cases h.operations; cases hd; cases hc
  match stack with
  | [] =>
    cases hr
    rfl
  | top :: below =>
    simp only [step, ← hk] at hr ⊢
    split at hr
    case h_1 => contradiction
    case h_2 =>
      split at hr <;> cases hr
      case h_2 e he =>
        -- A reduction that fails cites no token.
        cases e
        case unexpectedToken => exact absurd he reduceStack_ne_unexpected
        all_goals rfl
    all_goals
      cases hr
      rfl

theorem Stops.of_kinds (h : m.Stops limit tokens k r) (hr : r ≠ .error .tokensExhausted)
    (hkinds : ∀ i ≤ k, (others[i]?).map Token.kind = (tokens[i]?).map Token.kind) :
    ∃ token, others[k]? = some token ∧ m.Stops limit others k (r.mapError (·.citing token)) := by
  obtain ⟨hresult, c, hlast, rfl⟩ := h
  have ⟨n, _, hn, hreach, hd, hlast'⟩ := exists_reaches_of_parse? hresult
  cases hlast.symm.trans hlast'
  have ⟨_, _, ha⟩ := accounts_of_getLast? hlast
  have ⟨token, rest, hrest⟩ := exists_next_of_step ha.stack hd hr
  have ⟨hlength, _⟩ := List.getElem?_eq_some_iff.mp (ha.cursor_next hrest)
  have hleft : tokens.length - (c.cursor tokens + 1) < c.rest.length := by
    rw [ha.rest, List.length_drop]
    omega
  have htake : (tokens.map Token.kind).take (c.cursor tokens + 1) =
      (others.map Token.kind).take (c.cursor tokens + 1) := by
    refine List.ext_getElem? fun i => ?_
    simp only [List.getElem?_take, List.getElem?_map]
    split
    case isTrue hi => exact (hkinds i (Nat.le_of_lt_succ hi)).symm
    case isFalse => rfl
  have ⟨d, hreach', halike⟩ := (Alike.start hlength htake).reaches hreach hleft
  have ⟨token', rest', hrest', hkind, _⟩ := halike.next_kind hrest hleft
  have hd' := halike.done hrest hrest' hkind hd
  have ⟨_, _, ha'⟩ := accounts_of_getLast? (hreach'.getLast?_states hd' hn)
  have hcursor : d.cursor others = c.cursor tokens := by rw [ha'.cursor, ha.cursor, halike.operations]
  exact ⟨token', hcursor ▸ ha'.cursor_next hrest', hcursor ▸ of_reaches hreach' hd' hn⟩

theorem stops_of_ok (h : m.parse? limit tokens = some (.ok out)) :
    m.lookups limit tokens = out.operations.length + 1 ∧ out.operations.count .shift < tokens.length ∧
      m.Stops limit tokens (out.operations.count .shift) (.ok out) := by
  have ⟨n, c, hn, hr, hd, hlast⟩ := exists_reaches_of_parse? h
  obtain ⟨before, hb, ha⟩ := accounts_of_getLast? hlast
  obtain ⟨_, _, token, rest, _, hrest, _, rfl⟩ := step_eq_ok.mp hd
  have ⟨hk, _⟩ := List.getElem?_eq_some_iff.mp (ha.cursor_next hrest)
  rw [List.length_reverse, List.count_reverse, ← ha.cursor]
  exact ⟨lookups_eq hb hrest, hk, .of_reaches hr hd hn⟩

-- Further tokens are not looked at.
theorem parse?_append (h : m.parse? limit tokens = some (.ok out))
    (hk : others.map Token.kind = tokens.map Token.kind) (more : List (Token τ)) :
    m.parse? limit (others ++ more) = some (.ok out) := by
  have ⟨_, hlt, hs⟩ := stops_of_ok h
  have hlength : others.length = tokens.length := by simpa using congrArg List.length hk
  have hkinds : ∀ i ≤ out.operations.count .shift,
      ((others ++ more)[i]?).map Token.kind = (tokens[i]?).map Token.kind := by
    intro i hi
    rw [List.getElem?_append_left (by omega), ← List.getElem?_map, ← List.getElem?_map, hk]
  have ⟨_, _, hs⟩ := hs.of_kinds nofun hkinds
  exact hs.result

-- What has been shifted and reduced tells how far a run has got. It stops in the same way on all tokens that
-- agree with its own up to the one it stops at.
theorem run_accounts (m : Machine σ τ ν ρ) (tokens : List (Token τ)) (limit : Nat) :
    (∀ before c after, m.configs limit tokens = before ++ c :: after → m.Accounts tokens before c) ∧
      (∀ out, m.parse? limit tokens = some (.ok out) → m.lookups limit tokens = out.operations.length + 1 ∧
        out.operations.count .shift < tokens.length ∧
        m.Stops limit tokens (out.operations.count .shift) (.ok out)) ∧
      (∀ r, m.parse? limit tokens = some r → r ≠ .error .tokensExhausted →
        ∃ k, m.Stops limit tokens k r ∧
          ∀ others, (∀ i ≤ k, (others[i]?).map Token.kind = (tokens[i]?).map Token.kind) →
            ∃ token, others[k]? = some token ∧ m.Stops limit others k (r.mapError (·.citing token))) ∧
      ∀ out others more, m.parse? limit tokens = some (.ok out) →
        others.map Token.kind = tokens.map Token.kind →
        m.parse? limit (others ++ more) = some (.ok out) := by
  refine ⟨fun _ _ _ h => accounts_of_configs h, fun _ h => stops_of_ok h, fun r h hr => ?_,
    fun _ _ more h hk => parse?_append h hk more⟩
  have ⟨_, _, hn, hreach, hd, _⟩ := exists_reaches_of_parse? h
  have hs := Stops.of_reaches hreach hd hn
  exact ⟨_, hs, fun _ hk => hs.of_kinds hr hk⟩

end Machine

namespace Example.Underflow

-- A machine that reduces nothing, and then more than it has got.
def machine : Machine Nat Nat Unit Nat where
  initial := 0
  action
    | 0, 0 => some (.shift 1)
    | 1, 1 => some (.reduce 0 () 0)
    | 2, 1 => some (.reduce 1 () 3)
    | _, _ => none
  goto
    | 1, () => some 2
    | _, () => none

def tokens : List (Token Nat) := [⟨"a", 0, ⟨1, 1⟩⟩, ⟨"b", 1, ⟨1, 2⟩⟩]

def others : List (Token Nat) := [⟨"c", 0, ⟨1, 5⟩⟩, ⟨"d", 1, ⟨2, 1⟩⟩, ⟨"e", 7, ⟨2, 2⟩⟩]

end Example.Underflow

open Example.Underflow in
theorem Machine.run_accounts_underflow :
    machine.parse? 3 tokens = some (.error .emptyStack) ∧
      (∃ c before, machine.configs 3 tokens = before ++ [c] ∧ machine.Accounts tokens before c) ∧
      machine.parse? 3 others = some (.error .emptyStack) := by
  have h : machine.parse? 3 tokens = some (.error .emptyStack) := by rfl
  have ⟨haccounts, _, hkinds, _⟩ := machine.run_accounts tokens 3
  have ⟨k, ⟨_, c, hlast, hcursor⟩, hothers⟩ := hkinds _ h nofun
  obtain ⟨before, hb⟩ := List.getLast?_eq_some_iff.mp hlast
  have hk : k = 1 := by
    rw [← hcursor]
    cases hlast
    rfl
  have ⟨_, _, hstops⟩ := hothers others (by subst hk; decide)
  exact ⟨h, ⟨c, before, hb, haccounts before c [] hb⟩, hstops.result⟩

end CanonicalLR
