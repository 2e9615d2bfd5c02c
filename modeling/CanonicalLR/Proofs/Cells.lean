import CanonicalLR.Proofs.Discovery
import CanonicalLR.Proofs.Soundness

namespace CanonicalLR

variable {V : Type} {g : Grammar V} {a : Automaton} {s : State} {q : StateId} {x : Terminal}

-- The marker of an item has come to the end of a body if nothing is next.
def State.Ends (g : Grammar V) (s : State) : Prop :=
  ∀ c ∈ s.items, c.next? g = none →
    ∃ p, g.production? c.production = some p ∧ c.position.toNat = p.body.length

namespace Table

variable {c d : Center} {v w : Action} {i : Item} {n : Nonterminal} {r : StateId}

-- The center asks for the action on the terminal.
inductive Asks (g : Grammar V) (s : State) (x : Terminal) : Center → Action → Prop
  | shift {c : Center} {q : StateId} (mem : c ∈ s.items) (next : c.next? g = some (.terminal x))
    (target : s.target? x = some q) : Asks g s x c (.shift q)
  | reduce {c : Center} {p : Production V} (holds : s.items.Holds c x)
    (lookup : g.production? c.production = some p) (complete : c.position.toNat = p.body.length)
    (ne_accept : c.production ≠ .accept) : Asks g s x c (.reduce p.id p.head p.body.length)
  | accept {c : Center} {p : Production V} (mem : c ∈ s.items)
    (lookup : g.production? c.production = some p) (complete : c.position.toNat = p.body.length)
    (accept : c.production = .accept) (eof : x = .eof) : Asks g s x c .accept

-- No center before it asks for the action.
structure First (g : Grammar V) (s : State) (x : Terminal) (c : Center) (v : Action) : Prop where
  asks : Asks g s x c v
  before : ∀ d, Asks g s x d v → d = c ∨ c.Before d

theorem Asks.mem (h : Asks g s x c v) : c ∈ s.items := by
  cases h
  case shift hm _ _ => exact hm
  case reduce hh _ _ _ => exact hh.mem
  case accept hm _ _ _ _ => exact hm

namespace Row

theorem nodup_keys_itemActions : ((itemActions g s i).map Prod.fst).Nodup := by
  simp only [itemActions]
  split
  case h_1 t _ => cases s.target? t <;> simp
  case h_2 => simp
  case h_3 =>
    split
    case isTrue => simp
    case isFalse =>
      split
      case h_1 => simpa [Function.comp_def] using TerminalSet.nodup_toList
      case h_2 => simp

-- An item asks for an action if its center does.
theorem lookup_itemActions (he : s.Ends g) (hi : i ∈ s.items.items) :
    (itemActions g s i).lookup x = some v ↔ Asks g s x i.center v := by
  have hm : i.center ∈ s.items := ⟨i, hi, rfl⟩
  have : (itemActions g s i).lookup x = some v ↔ (x, v) ∈ itemActions g s i :=
    ⟨mem_of_lookup, lookup_of_mem nodup_keys_itemActions⟩
  rw [this]
  cases v
  case shift q =>
    rw [mem_itemActions_shift]
    constructor
    case mp => exact fun ⟨hn, hq⟩ => .shift hm hn hq
    case mpr =>
      rintro ⟨⟩
      exact ⟨‹_›, ‹_›⟩
  case accept =>
    rw [mem_itemActions_accept]
    constructor
    case mp =>
      intro ⟨hn, ha, hx⟩
      have ⟨p, hp, hl⟩ := he _ hm hn
      exact .accept hm hp hl ha hx
    case mpr =>
      intro h
      cases h
      case accept _ hp hl ha hx => exact ⟨Center.next?_eq_none hp hl, ha, hx⟩
  case reduce =>
    rw [mem_itemActions_reduce]
    constructor
    case mp =>
      rintro ⟨hn, ha, hx, p, hp, rfl, rfl, rfl⟩
      have ⟨p', hp', hl⟩ := he _ hm hn
      cases hp.symm.trans hp'
      exact .reduce ⟨i, hi, rfl, hx⟩ hp hl ha
    case mpr =>
      intro h
      cases h
      case reduce p hh hp hl ha =>
        exact ⟨Center.next?_eq_none hp hl, ha, (ItemSet.holds_center hi).mp hh, p, hp, rfl, rfl, rfl⟩

end Row

theorem nodup_actions : ((ofAutomaton g a).actions q x).Nodup := by
  simp only [actions, ofAutomaton, List.getElem?_map]
  cases a.states[q.index]?
  case none => exact .nil
  case some => exact Cells.nodup_entries_ofEntries

theorem Asks.unique (he : s.Ends g) (hv : Asks g s x c v) (hw : Asks g s x c w) : v = w := by
  obtain ⟨i, hi, rfl⟩ := hv.mem
  have hv := (Row.lookup_itemActions he hi).mpr hv
  have hw := (Row.lookup_itemActions he hi).mpr hw
  exact Option.some.inj (hv.symm.trans hw)

theorem mem_actionCells {vs : List Action} (hv : vs ≠ []) :
    (q, x, vs) ∈ (ofAutomaton g a).actionCells ↔ (ofAutomaton g a).actions q x = vs := by
  simp only [actionCells, actions, ofAutomaton, List.mem_flatMap, List.mem_map, Prod.exists,
    List.mem_zipIdx_iff_getElem?, List.getElem?_map, Option.map_eq_some_iff, Prod.mk.injEq]
  constructor
  case mp =>
    rintro ⟨_, i, ⟨s, hs, rfl⟩, y, ws, hm, rfl, rfl, rfl⟩
    simp only [hs, Option.map_some]
    exact (Cells.mem_ofEntries hv).mp hm
  case mpr =>
    intro h
    cases hs : a.states[q.index]?
    case none =>
      rw [hs] at h
      exact absurd h.symm hv
    case some s =>
      rw [hs] at h
      exact ⟨_, q.index, ⟨s, hs, rfl⟩, x, vs, (Cells.mem_ofEntries hv).mpr h, rfl, rfl, rfl⟩

theorem ConflictKind.ofActions_eq_shiftReduce {vs : List Action} :
    ConflictKind.ofActions vs = .shiftReduce ↔ ∃ q', .shift q' ∈ vs := by
  simp only [ofActions]
  split
  case isTrue h =>
    obtain ⟨v, hv, hs⟩ := List.any_eq_true.mp h
    cases v <;> cases hs
    exact iff_of_true rfl ⟨_, hv⟩
  case isFalse h =>
    refine iff_of_false (by simp) fun ⟨q', hq⟩ => h (List.any_eq_true.mpr ⟨_, hq, rfl⟩)

theorem mem_conflicts {k : Conflict} : k ∈ (ofAutomaton g a).conflicts ↔
    (∃ v w, v ≠ w ∧ v ∈ (ofAutomaton g a).actions k.state k.terminal ∧
      w ∈ (ofAutomaton g a).actions k.state k.terminal) ∧
    (k.kind = .shiftReduce ↔ ∃ q', .shift q' ∈ (ofAutomaton g a).actions k.state k.terminal) := by
  rw [← one_lt_length_iff nodup_actions, ← ConflictKind.ofActions_eq_shiftReduce]
  obtain ⟨q, x, kind⟩ := k
  have hkind (vs : List Action) : (kind = .shiftReduce ↔ ConflictKind.ofActions vs = .shiftReduce) ↔
      kind = .ofActions vs := by
    cases kind <;> cases ConflictKind.ofActions vs <;> simp
  rw [hkind]
  simp only [conflicts, List.mem_map, List.mem_filter, decide_eq_true_eq, Prod.exists, Conflict.mk.injEq]
  have ne_nil {vs : List Action} (h : 1 < vs.length) : vs ≠ [] := by
    rintro rfl
    simp at h
  constructor
  case mp =>
    rintro ⟨_, _, vs, ⟨hm, hl⟩, rfl, rfl, rfl⟩
    rw [(mem_actionCells (ne_nil hl)).mp hm]
    exact ⟨hl, rfl⟩
  case mpr =>
    rintro ⟨hl, rfl⟩
    exact ⟨q, x, _, ⟨(mem_actionCells (ne_nil hl)).mpr rfl, hl⟩, rfl, rfl, rfl⟩

end Table

end CanonicalLR
