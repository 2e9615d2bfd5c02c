import CanonicalLR.Proofs.Authoring

namespace CanonicalLR

variable {V α κ : Type}

-- Entries that have been filed in order under the numbers of a counter, which they know.
structure Registry.Counted (r : Registry κ α) (f : Nat → κ) (id : α → κ) (next : UInt16) : Prop where
  keys : r.keys = (List.range r.length).map f
  ids : ∀ e ∈ r, id e.2 = e.1
  next : next = .ofNat r.length

namespace Registry.Counted

variable {r : Registry κ α} {f : Nat → κ} {id : α → κ} {next : UInt16} {i : Nat} {value : α}

-- The counter is right while it has numbers left.
theorem toNat_next (h : r.Counted f id next) (hl : r.length < UInt16.size) : next.toNat = r.length := by
  rw [h.next, UInt16.toNat_ofNat', Nat.mod_eq_of_lt hl]

theorem length_values : r.values.length = r.length := List.length_map ..

variable (hf : Function.Injective f)
include hf

theorem mem_keys (h : r.Counted f id next) : f i ∈ r.keys ↔ i < r.length := by
  rw [h.keys, List.mem_map_of_injective hf, List.mem_range]

variable [DecidableEq κ]

theorem file_eq (h : r.Counted f id next) (hl : r.length < UInt16.size) :
    r.file (f next.toNat) value = r ++ [(f next.toNat, value)] := by
  refine file_of_notMem fun hm => ?_
  rw [h.toNat_next hl, h.mem_keys hf] at hm
  exact Nat.lt_irrefl _ hm

theorem length_file (h : r.Counted f id next) (hl : r.length < UInt16.size) :
    (r.file (f next.toNat) value).length = r.length + 1 := by
  rw [h.file_eq hf hl, List.length_append, List.length_singleton]

-- The entry takes one of the numbers that are left.
theorem room {n : Nat} (h : r.Counted f id next) (hr : r.length + (n + 1) ≤ UInt16.size) :
    r.length < UInt16.size ∧ ∀ value, (r.file (f next.toNat) value).length + n ≤ UInt16.size := by
  have hl : r.length < UInt16.size := by omega
  refine ⟨hl, fun value => ?_⟩
  rw [h.length_file hf hl]
  omega

theorem file (h : r.Counted f id next) (hl : r.length < UInt16.size) (hv : id value = f next.toNat) :
    (r.file (f next.toNat) value).Counted f id (next + 1) where
  keys := by
    rw [h.length_file hf hl, List.range_succ, List.map_append, ← h.keys, h.file_eq hf hl, h.toNat_next hl]
    exact List.map_append
  ids e he := by
    rw [h.file_eq hf hl] at he
    obtain he | he := List.mem_append.mp he
    · exact h.ids e he
    · rw [List.mem_singleton.mp he, hv]
  next := by
    rw [h.length_file hf hl, h.next]
    exact UInt16.toNat_inj.mp (by simp)

theorem values_file (h : r.Counted f id next) (hl : r.length < UInt16.size) (value : α) :
    (r.file (f next.toNat) value).values = r.values ++ [value] := by
  rw [h.file_eq hf hl, values, List.map_append]
  rfl

theorem lookup_range' {start n : Nat} (h : r.keys = (List.range' start n).map f) :
    List.lookup (f (start + i)) r = r.values[i]? := by
  induction r generalizing start n i
  case nil => rfl
  case cons e r hi =>
    cases n
    case zero => contradiction
    case succ n =>
      have ⟨he, hr⟩ : e.1 = f start ∧ Registry.keys r = (List.range' (start + 1) n).map f :=
        List.cons.inj h
      cases i
      case zero =>
        rw [Nat.add_zero, ← he]
        exact List.lookup_cons_self
      case succ i =>
        have hne : (f (start + (i + 1)) == e.1) = false := by
          simpa [he] using fun h => absurd (hf h) (by omega)
        have hs : start + (i + 1) = start + 1 + i := by omega
        rw [List.lookup_cons, hne, hs]
        exact hi hr

-- An entry is found at its place.
theorem lookup (h : r.Counted f id next) : List.lookup (f i) r = r.values[i]? := by
  rw [← lookup_range' hf (h.keys.trans (by rw [List.range_eq_range'])), Nat.zero_add]

end Registry.Counted

-- There are numbers for all that is declared.
structure Declaration.Few (xs : List (Declaration V)) : Prop where
  terminals : (xs.filterMap terminal?).length < UInt16.size
  nonterminals : (xs.filterMap nonterminal?).length < UInt16.size
  rules : (xs.filterMap rule?).length < UInt16.size

namespace Session

variable {s s' : Session V} {x : Declaration V} {xs : List (Declaration V)} {y : Symbol}

-- All identifiers have been handed out by the counters.
structure Numbered (s : Session V) : Prop where
  terminals : s.terminals.Counted .mk Named.id s.nextTerminal
  nonterminals : s.nonterminals.Counted .mk Named.id s.nextNonterminal
  productions : s.productions.Counted .mk Production.id s.nextProduction

-- The numbers that are left are enough for the declarations to come.
structure Room (s : Session V) (xs : List (Declaration V)) : Prop where
  terminals : s.terminals.length + (xs.filterMap Declaration.terminal?).length ≤ UInt16.size
  nonterminals : s.nonterminals.length + (xs.filterMap Declaration.nonterminal?).length ≤ UInt16.size
  rules : s.productions.length + (xs.filterMap Declaration.rule?).length ≤ UInt16.size

theorem room_initial (h : Declaration.Few xs) : (initial : Session V).Room xs where
  terminals := by
    have := h.terminals
    simp only [initial, List.length_singleton]
    omega
  nonterminals := by
    have := h.nonterminals
    simp only [initial, List.length_singleton]
    omega
  rules := by
    have := h.rules
    simp only [initial, List.length_singleton]
    omega

-- A refused declaration takes up no room.
theorem Room.tail (h : s.Room (x :: xs)) : s.Room xs where
  terminals := Nat.le_trans (Nat.add_le_add_left ((List.sublist_cons_self ..).filterMap _).length_le _) h.terminals
  nonterminals :=
    Nat.le_trans (Nat.add_le_add_left ((List.sublist_cons_self ..).filterMap _).length_le _) h.nonterminals
  rules := Nat.le_trans (Nat.add_le_add_left ((List.sublist_cons_self ..).filterMap _).length_le _) h.rules

def draft (s : Session V) : Draft V where
  toVocabulary := s.vocabulary
  productions := s.productions.values
  start := s.start

theorem injective_terminal : Function.Injective Terminal.mk := fun _ _ => Terminal.mk.inj
theorem injective_nonterminal : Function.Injective Nonterminal.mk := fun _ _ => Nonterminal.mk.inj
theorem injective_production : Function.Injective ProductionId.mk := fun _ _ => ProductionId.mk.inj

theorem numbered_initial : (initial : Session V).Numbered where
  terminals := ⟨rfl, by simp [initial], rfl⟩
  nonterminals := ⟨rfl, by simp [initial], rfl⟩
  productions := ⟨rfl, by simp [initial], rfl⟩

namespace Numbered

theorem length_terminals : s.draft.terminals.length = s.terminals.length := by
  simp [draft, vocabulary, Registry.values]

theorem length_nonterminals : s.draft.nonterminals.length = s.nonterminals.length := by
  simp [draft, vocabulary, Registry.values]

theorem declares_iff (h : s.Numbered) : s.Declares y ↔ s.draft.Declares y := by
  cases y
  case terminal t =>
    exact (h.terminals.mem_keys injective_terminal).trans (by rw [← length_terminals]; rfl)
  case nonterminal n =>
    exact (h.nonterminals.mem_keys injective_nonterminal).trans (by rw [← length_nonterminals]; rfl)

theorem usable_iff (h : s.Numbered) : s.Usable y ↔ s.draft.Usable y := and_congr_left fun _ => h.declares_iff

theorem checkHead (h : s.Numbered) (head : Nonterminal) : s.checkHead head = s.draft.checkHead head := by
  simp only [Session.checkHead, Draft.checkHead, h.declares_iff]

theorem checkBody (h : s.Numbered) (body : List Symbol) : s.checkBody body = s.draft.checkBody body := by
  have husable : (fun y => decide (¬ s.Usable y)) = fun y => decide (¬ s.draft.Usable y) :=
    funext fun _ => decide_eq_decide.mpr (not_congr h.usable_iff)
  rw [Session.checkBody, husable]
  rfl

theorem checkNew (h : s.Numbered) (head : Nonterminal) (body : List Symbol) :
    s.checkNew head body = s.draft.checkNew head body := by
  have hname : ((List.lookup head s.nonterminals).map Named.name).getD "<unknown>" =
      s.draft.nonterminalName head := by
    rw [show List.lookup head s.nonterminals = _ from h.nonterminals.lookup injective_nonterminal,
      ← List.getElem?_map]
    rfl
  rw [Session.checkNew, hname]
  rfl

theorem checkStart (h : s.Numbered) (symbol : Nonterminal) : (do
    s.checkStart symbol
    return { s.draft with start := some symbol }) = s.draft.setStart symbol := by
  simp only [Session.checkStart, Draft.setStart, h.usable_iff]
  split <;> rfl

theorem withTerminal (h : s.Numbered) (hl : s.terminals.length < UInt16.size) (name : String) :
    (s.withTerminal name).Numbered :=
  { h with terminals := h.terminals.file injective_terminal hl rfl }

theorem withNonterminal (h : s.Numbered) (hl : s.nonterminals.length < UInt16.size) (name : String) :
    (s.withNonterminal name).Numbered :=
  { h with nonterminals := h.nonterminals.file injective_nonterminal hl rfl }

theorem withProduction (h : s.Numbered) (hl : s.productions.length < UInt16.size) (head : Nonterminal)
    (body : List Symbol) (a : Attributes V) : (s.withProduction head body a).Numbered :=
  { h with productions := h.productions.file injective_production hl rfl }

theorem draft_withTerminal (h : s.Numbered) (hl : s.terminals.length < UInt16.size) (name : String) :
    s.draft.addTerminal name = (do
      s.checkName name
      return (⟨s.nextTerminal.toNat⟩, (s.withTerminal name).draft)) := by
  have hd : (s.withTerminal name).draft = { s.draft with terminals := s.draft.terminals ++ [name] } := by
    have hv := congrArg (List.map Named.name)
      (h.terminals.values_file injective_terminal hl ⟨⟨s.nextTerminal.toNat⟩, name⟩)
    rw [List.map_append] at hv
    exact congrArg (fun names => { s.draft with terminals := names }) hv
  rw [hd, h.terminals.toNat_next hl, ← length_terminals]
  rfl

theorem draft_withNonterminal (h : s.Numbered) (hl : s.nonterminals.length < UInt16.size) (name : String) :
    s.draft.addNonterminal name = (do
      s.checkName name
      return (⟨s.nextNonterminal.toNat⟩, (s.withNonterminal name).draft)) := by
  have hd : (s.withNonterminal name).draft =
      { s.draft with nonterminals := s.draft.nonterminals ++ [name] } := by
    have hv := congrArg (List.map Named.name)
      (h.nonterminals.values_file injective_nonterminal hl ⟨⟨s.nextNonterminal.toNat⟩, name⟩)
    rw [List.map_append] at hv
    exact congrArg (fun names => { s.draft with nonterminals := names }) hv
  rw [hd, h.nonterminals.toNat_next hl, ← length_nonterminals]
  rfl

theorem draft_withProduction (h : s.Numbered) (hl : s.productions.length < UInt16.size) (head : Nonterminal)
    (body : List Symbol) (a : Attributes V) :
    s.draft.addProduction head body a = (do
      s.checkHead head
      s.checkBody body
      s.checkNew head body
      let fitted ← Draft.fitAttributes body a
      return (⟨s.nextProduction.toNat⟩, (s.withProduction head body fitted).draft)) := by
  have hd fitted : (s.withProduction head body fitted).draft = { s.draft with
      productions := s.draft.productions ++ [⟨⟨s.nextProduction.toNat⟩, head, body, fitted⟩] } :=
    congrArg (fun productions => { s.draft with productions })
      (h.productions.values_file injective_production hl _)
  simp only [hd, h.checkHead, h.checkBody, h.checkNew]
  rw [h.productions.toNat_next hl, ← Registry.Counted.length_values]
  rfl

-- A call is a declaration on the draft.
theorem perform_declare (h : s.Numbered) (hr : s.Room (x :: xs)) :
    (∃ e, (declare x).perform s = (.error e, s) ∧ s.draft.declare x = .error e) ∨
      ∃ r s', (declare x).perform s = (.ok r, s') ∧ s'.Numbered ∧ s'.Room xs ∧
        s.draft.declare x = .ok (r, s'.draft) := by
  cases x
  case terminal name =>
    obtain ⟨hl, hroom⟩ := h.terminals.room injective_terminal
      (n := (xs.filterMap Declaration.terminal?).length) hr.terminals
    rw [declare, perform_map, declareTerminal, perform_consult, Draft.declare, h.draft_withTerminal hl]
    cases s.checkName name
    case error e => exact .inl ⟨e, rfl, rfl⟩
    case ok => exact .inr ⟨_, _, rfl, h.withTerminal hl name, { hr.tail with terminals := hroom _ }, rfl⟩
  case nonterminal name =>
    obtain ⟨hl, hroom⟩ := h.nonterminals.room injective_nonterminal
      (n := (xs.filterMap Declaration.nonterminal?).length) hr.nonterminals
    rw [declare, perform_map, declareNonterminal, perform_consult, Draft.declare,
      h.draft_withNonterminal hl]
    cases s.checkName name
    case error e => exact .inl ⟨e, rfl, rfl⟩
    case ok =>
      exact .inr ⟨_, _, rfl, h.withNonterminal hl name, { hr.tail with nonterminals := hroom _ }, rfl⟩
  case production head body a =>
    obtain ⟨hl, hroom⟩ := h.productions.room injective_production
      (n := (xs.filterMap Declaration.rule?).length) hr.rules
    rw [declare, perform_map, declareProduction, perform_consult, Draft.declare, h.draft_withProduction hl]
    cases s.checkHead head
    case error e => exact .inl ⟨e, rfl, rfl⟩
    rw [perform_consult]
    cases s.checkBody body
    case error e => exact .inl ⟨e, rfl, rfl⟩
    rw [perform_consult]
    cases s.checkNew head body
    case error e => exact .inl ⟨e, rfl, rfl⟩
    rw [perform_consult]
    cases Draft.fitAttributes body a
    case error e => exact .inl ⟨e, rfl, rfl⟩
    case ok fitted =>
      exact .inr ⟨_, _, rfl, h.withProduction hl head body fitted, { hr.tail with rules := hroom _ }, rfl⟩
  case start symbol =>
    rw [declare, perform_map, declareStart, perform_consult, Draft.declare, ← h.checkStart]
    cases s.checkStart symbol
    case error e => exact .inl ⟨e, rfl, rfl⟩
    case ok => exact .inr ⟨_, _, rfl, { h with }, { hr.tail with }, rfl⟩

theorem startSymbol (h : s.Numbered) : s.startSymbol = s.draft.startSymbol := by
  have hs : s.draft.start = s.start := rfl
  rw [Session.startSymbol, Draft.startSymbol, length_nonterminals, hs]
  cases s.start
  case some => rfl
  case none =>
    rw [h.nonterminals.keys]
    obtain _ | _ | n := s.nonterminals.length
    · rfl
    · rfl
    · simp [List.range_succ_eq_map, Nonterminal.start]

theorem finish (h : s.Numbered) : s.finish = s.draft.finish := by
  have hfill (n : Nonterminal) : (s.productions.map fun e =>
      if e.1 = .accept then { e.2 with body := [.nonterminal n] } else e.2) =
      s.draft.productions.map (·.fill n) := by
    have hv : s.draft.productions = s.productions.map Prod.snd := rfl
    rw [hv, List.map_map]
    refine List.map_congr_left fun e he => ?_
    rw [← h.productions.ids e he]
    rfl
  rw [Session.finish, Draft.finish, h.startSymbol]
  cases s.draft.startSymbol
  case error => rfl
  case ok n =>
    simp only [hfill]
    rfl

end Numbered
end Session

-- The answers to declarations, whether they are refused or not.
def Draft.answers (d : Draft V) : List (Declaration V) → List (Except GrammarError Declared)
  | [] => []
  | x :: xs => (d.declare x).map Prod.fst :: (d.attempt x).answers xs

namespace Session

theorem Numbered.declareAll {s : Session V} {xs : List (Declaration V)} (h : s.Numbered) (hr : s.Room xs) :
    ∃ s', (declareAll xs).run s = (s.draft.answers xs, s') ∧ s'.Numbered ∧
      s'.draft = xs.foldl Draft.attempt s.draft := by
  induction xs generalizing s
  case nil => exact ⟨s, rfl, h, rfl⟩
  case cons x xs hi =>
    rw [declareAll_cons, Draft.answers, List.foldl_cons, Draft.attempt]
    obtain ⟨e, hs, hd⟩ | ⟨r, s', hs, hn, hr, hd⟩ := h.perform_declare hr
    · obtain ⟨t, ht, hn, hf⟩ := hi h hr.tail
      rw [hs, hd]
      exact ⟨t, by rw [ht]; rfl, hn, hf⟩
    · obtain ⟨t, ht, hn, hf⟩ := hi hn hr
      rw [hs, hd]
      exact ⟨t, by rw [ht]; rfl, hn, hf⟩

-- What is authored in place is what comes of a draft.
theorem author_eq_draft {xs : List (Declaration V)} (h : Declaration.Few xs) : (after xs).Numbered ∧
    author xs = (Draft.empty.answers xs, (xs.foldl Draft.attempt .empty).finish) := by
  have ⟨s, hs, hn, hd⟩ := numbered_initial.declareAll (room_initial h)
  have hempty : (initial : Session V).draft = .empty := rfl
  rw [after, author, hs, ← hempty, ← hd, ← hn.finish]
  exact ⟨hn, rfl⟩

end Session

-- Refused declarations are ignored, unless they keep the grammar from being defined.
theorem Grammar.wellFormed_of_declarations (xs : List (Declaration V)) (g : Grammar V) :
    (define xs = .ok g → g.WellFormed ∧ g.Records xs) ∧
    ((xs.foldl Draft.attempt .empty).finish = .ok g → g.WellFormed ∧ g.Records (Draft.empty.accepted xs)) ∧
    (Declaration.Few xs → (Session.after xs).Numbered ∧
      Session.author xs = (Draft.empty.answers xs, (xs.foldl Draft.attempt .empty).finish)) := by
  refine ⟨wellFormed_of_define, fun h => ?_, Session.author_eq_draft⟩
  exact wellFormed_of_define (bind_eq_ok.mpr ⟨_, Draft.declareAll_accepted .empty xs, h⟩)

namespace Example.Refused

def a : Terminal := ⟨1⟩
def s : Nonterminal := ⟨1⟩

-- The empty name, the name that is taken, the production that is there and the reserved start symbol are
-- refused.
def declarations : List (Declaration Ast) := [
  .terminal "A", .terminal "", .nonterminal "S", .terminal "S",
  .production s [a] .none, .production s [a] .none, .start .start]

def grammar : Grammar Ast where
  terminals := ["$eof", "A"]
  nonterminals := ["$start", "S"]
  productions := [⟨.accept, .start, [.nonterminal s], .none⟩, ⟨⟨1⟩, s, [a], ⟨[none, none], false⟩⟩]
  startSymbol := s

theorem finish_eq : (declarations.foldl Draft.attempt .empty).finish = .ok grammar := by rfl

def accepted : List (Declaration Ast) := [.terminal "A", .nonterminal "S", .production s [a] .none]

theorem accepted_eq : Draft.empty.accepted declarations = accepted := by rfl

theorem define_eq : Grammar.define accepted = .ok grammar := by rfl

theorem few : Declaration.Few declarations := ⟨by decide, by decide, by decide⟩

end Example.Refused

open Example.Refused in
theorem Grammar.wellFormed_of_declarations_refused :
    Draft.empty.accepted declarations = accepted ∧ grammar.WellFormed ∧
      grammar.Records (Draft.empty.accepted declarations) ∧ grammar.Records accepted ∧
      (Session.after declarations).Numbered ∧ (Session.author declarations).2 = .ok grammar := by
  have ⟨_, hattempt, hauthor⟩ := wellFormed_of_declarations declarations grammar
  have ⟨hw, hr⟩ := hattempt finish_eq
  have ⟨_, hd⟩ := (wellFormed_of_declarations accepted grammar).left define_eq
  have ⟨hn, he⟩ := hauthor few
  exact ⟨accepted_eq, hw, hr, hd, hn, by rw [he, finish_eq]⟩

end CanonicalLR
