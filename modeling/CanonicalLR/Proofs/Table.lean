import CanonicalLR.Proofs.Registration

namespace CanonicalLR

variable {V : Type}

namespace Table

variable {g : Grammar V} {a : Automaton} {s : State} {q q' : StateId} {x : Terminal} {v : Action}
variable {n : Nonterminal}

namespace Row

variable {i : Item} {id : ProductionId} {length : Nat}

-- What an item must be like to ask for an action.

theorem mem_itemActions_shift : (x, .shift q') ∈ itemActions g s i ↔
    i.next? g = some (.terminal x) ∧ s.target? x = some q' := by
  simp only [itemActions]
  split
  case h_1 t ht =>
    rw [ht]
    constructor
    case mp =>
      intro h
      obtain ⟨_, hq, ⟨⟩⟩ := List.mem_map.mp h
      exact ⟨rfl, Option.mem_toList.mp hq⟩
    case mpr =>
      rintro ⟨⟨⟩, hq⟩
      exact List.mem_map_of_mem (Option.mem_toList.mpr hq)
  case h_2 hn => simp [hn]
  case h_3 hn =>
    simp only [hn]
    split
    case isTrue => simp
    case isFalse => split <;> simp

theorem mem_itemActions_accept : (x, .accept) ∈ itemActions g s i ↔
    i.next? g = none ∧ i.center.production = .accept ∧ x = .eof := by
  simp only [itemActions]
  split
  case h_1 hn => simp [hn]
  case h_2 hn => simp [hn]
  case h_3 hn =>
    simp only [hn]
    split
    case isTrue ha => simp [ha]
    case isFalse ha => split <;> simp [ha]

theorem mem_itemActions_reduce : (x, .reduce id n length) ∈ itemActions g s i ↔
    i.next? g = none ∧ i.center.production ≠ .accept ∧ x ∈ i.lookaheads ∧
      ∃ p, g.production? i.center.production = some p ∧ id = p.id ∧ n = p.head ∧
        length = p.body.length := by
  simp only [itemActions]
  split
  case h_1 hn => simp [hn]
  case h_2 hn => simp [hn]
  case h_3 hn =>
    simp only [hn]
    split
    case isTrue ha => simp [ha]
    case isFalse ha =>
      split
      case h_2 hp => simp [hp]
      case h_1 p hp =>
        rw [hp]
        constructor
        case mp =>
          intro h
          obtain ⟨_, hx, ⟨⟩⟩ := List.mem_map.mp h
          exact ⟨trivial, ha, TerminalSet.mem_toList.mp hx, p, rfl, rfl, rfl, rfl⟩
        case mpr =>
          rintro ⟨_, _, hx, _, ⟨⟩, rfl, rfl, rfl⟩
          exact List.mem_map_of_mem (TerminalSet.mem_toList.mpr hx)

theorem mem_itemGotos : (n, q') ∈ itemGotos g s i ↔
    i.next? g = some (.nonterminal n) ∧ s.target? n = some q' := by
  simp only [itemGotos]
  split
  case h_1 m hm =>
    rw [hm]
    constructor
    case mp =>
      intro h
      obtain ⟨_, hq, ⟨⟩⟩ := List.mem_map.mp h
      exact ⟨rfl, Option.mem_toList.mp hq⟩
    case mpr =>
      rintro ⟨⟨⟩, hq⟩
      exact List.mem_map_of_mem (Option.mem_toList.mpr hq)
  case h_2 hm => simpa using fun h => absurd h (hm n)

end Row

theorem compile_eq_ok {t : Table} :
    compile g = .ok t ↔ ∃ a, Automaton.build g = .ok a ∧ ofAutomaton g a = t := by
  simp only [compile]
  cases Automaton.build g <;> simp

theorem compile_canonical {t : Table} (h : compile g = .ok t) :
    ∃ a, Automaton.Canonical g a ∧ t = ofAutomaton g a := by
  obtain ⟨a, ha, rfl⟩ := compile_eq_ok.mp h
  exact ⟨a, Automaton.build_canonical ha, rfl⟩

theorem exists_compile_of_firstSets {firsts : FirstSets} (hf : g.firstSets = firsts)
    (hs : (g.productionsOf .start).length = 1)
    (hc : (Automaton.buildWith? g firsts).map (fun a => (ofAutomaton g a).conflicts) = some []) :
    ∃ t, compile g = .ok t ∧ t.conflicts = [] := by
  have ⟨a, ha, hc⟩ := Option.map_eq_some_iff.mp hc
  exact ⟨ofAutomaton g a, compile_eq_ok.mpr ⟨a, Automaton.build_of_firstSets hf hs ha, rfl⟩, hc⟩

theorem mem_actions : v ∈ (ofAutomaton g a).actions q x ↔
    ∃ s, a.state? q = some s ∧ ∃ i ∈ s.items.items, (x, v) ∈ Row.itemActions g s i := by
  simp only [actions, ofAutomaton, List.getElem?_map, Automaton.state?]
  cases a.states[q.index]?
  case none => simp
  case some s => simp [Row.ofState, Cells.mem_entries_ofEntries]

theorem mem_actions_shift : .shift q' ∈ (ofAutomaton g a).actions q x ↔ ∃ s, a.state? q = some s ∧
    s.target? x = some q' ∧ ∃ c ∈ s.items, c.next? g = some (.terminal x) := by
  simp only [mem_actions, Row.mem_itemActions_shift]
  constructor
  case mp =>
    intro ⟨s, hs, i, hi, hx, hq⟩
    exact ⟨s, hs, hq, i.center, ⟨i, hi, rfl⟩, hx⟩
  case mpr =>
    intro ⟨s, hs, hq, _, ⟨i, hi, rfl⟩, hx⟩
    exact ⟨s, hs, i, hi, hx, hq⟩

theorem mem_actions_accept : .accept ∈ (ofAutomaton g a).actions q x ↔ x = .eof ∧
    ∃ s, a.state? q = some s ∧ ∃ c ∈ s.items, c.production = .accept ∧ c.next? g = none := by
  simp only [mem_actions, Row.mem_itemActions_accept]
  constructor
  case mp =>
    intro ⟨s, hs, i, hi, hn, ha, hx⟩
    exact ⟨hx, s, hs, i.center, ⟨i, hi, rfl⟩, ha, hn⟩
  case mpr =>
    intro ⟨hx, s, hs, _, ⟨i, hi, rfl⟩, ha, hn⟩
    exact ⟨s, hs, i, hi, hn, ha, hx⟩

theorem mem_actions_reduce {id : ProductionId} {length : Nat} :
    .reduce id n length ∈ (ofAutomaton g a).actions q x ↔ ∃ s, a.state? q = some s ∧
      ∃ c p, s.items.Holds c x ∧ c.next? g = none ∧ c.production ≠ .accept ∧
        g.production? c.production = some p ∧ id = p.id ∧ n = p.head ∧ length = p.body.length := by
  simp only [mem_actions, Row.mem_itemActions_reduce]
  constructor
  case mp =>
    intro ⟨s, hs, i, hi, hn, ha, hx, p, hp⟩
    exact ⟨s, hs, i.center, p, ⟨i, hi, rfl, hx⟩, hn, ha, hp⟩
  case mpr =>
    intro ⟨s, hs, _, p, ⟨i, hi, rfl, hx⟩, hn, ha, hp⟩
    exact ⟨s, hs, i, hi, hn, ha, hx, p, hp⟩

theorem mem_gotos : q' ∈ (ofAutomaton g a).gotos q n ↔ ∃ s, a.state? q = some s ∧
    s.target? n = some q' ∧ ∃ c ∈ s.items, c.next? g = some (.nonterminal n) := by
  simp only [gotos, ofAutomaton, List.getElem?_map, Automaton.state?]
  cases a.states[q.index]?
  case none => simp
  case some s =>
    simp only [Option.map_some, Row.ofState, Cells.mem_entries_ofEntries, List.mem_flatMap,
      Row.mem_itemGotos, Option.some.injEq, exists_eq_left', ItemSet.mem_def]
    constructor
    case mp =>
      rintro ⟨i, hi, hn, hq⟩
      exact ⟨hq, i.center, ⟨i, hi, rfl⟩, hn⟩
    case mpr =>
      rintro ⟨hq, _, ⟨i, hi, rfl⟩, hn⟩
      exact ⟨i, hi, hn, hq⟩

-- All entries of a goto cell are the target of one transition.
theorem goto?_eq_some : (ofAutomaton g a).goto? q n = some q' ↔ ∃ s, a.state? q = some s ∧
    s.target? n = some q' ∧ ∃ c ∈ s.items, c.next? g = some (.nonterminal n) := by
  constructor
  case mp => exact fun h => mem_gotos.mp (List.mem_of_mem_head? h)
  case mpr =>
    intro ⟨s, hs, hq, hc⟩
    have hm := mem_gotos.mpr ⟨s, hs, hq, hc⟩
    cases he : (ofAutomaton g a).gotos q n
    case nil =>
      rw [he] at hm
      contradiction
    case cons r rs =>
      have ⟨s', hs', hr, _⟩ := mem_gotos.mp (he ▸ List.mem_cons_self : r ∈ _)
      rw [hs] at hs'
      cases hs'
      simp [goto?, he, ← hq, hr]

theorem mem_actions_of_action? {t : Table} (h : t.action? q x = some v) : v ∈ t.actions q x :=
  List.mem_of_mem_head? h

theorem actions_length_le {t : Table} (h : t.conflicts = []) : (t.actions q x).length ≤ 1 := by
  simp only [actions]
  split
  case h_2 => simp
  case h_1 row hr =>
    cases hl : row.actions.lookup x
    case none => simp [Cells.entries, hl]
    case some as =>
      have hm : (q, x, as) ∈ t.actionCells :=
        List.mem_flatMap.mpr ⟨(row, q.index), List.mem_zipIdx_iff_getElem?.mpr hr,
          List.mem_map_of_mem (mem_of_lookup hl)⟩
      have := List.filter_eq_nil_iff.mp (List.map_eq_nil_iff.mp h) _ hm
      simpa [Cells.entries, hl] using this

theorem action?_of_mem {t : Table} (h : t.conflicts = []) (hv : v ∈ t.actions q x) :
    t.action? q x = some v := by
  have hl := actions_length_le (q := q) (x := x) h
  cases he : t.actions q x
  case nil =>
    rw [he] at hv
    contradiction
  case cons u us =>
    rw [he, List.length_cons] at hl
    have : us = [] := List.eq_nil_of_length_eq_zero (by omega)
    rw [he, this, List.mem_singleton] at hv
    simp [action?, he, hv]

end Table
end CanonicalLR
