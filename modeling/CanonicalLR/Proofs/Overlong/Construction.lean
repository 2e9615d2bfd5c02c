import CanonicalLR.Proofs.Cells
import CanonicalLR.Proofs.Construction

namespace CanonicalLR

open Automaton

section

variable {V : Type} {g : Grammar V} {a : Automaton} {p : Production V}

namespace Table

variable {table : Table} {id : ProductionId} {limit n : Nat} {tokens : List (Token Terminal)}

end Table
end

-- A body of nothing but one symbol.
namespace Example.Overlong

def x : Terminal := ⟨1⟩
def s : Nonterminal := ⟨1⟩
def a : Nonterminal := ⟨2⟩

-- `S := y … y` and `A := ε`, with `x` or `A` for `y`.
def declarations (y : Symbol) (n : Nat) : List (Declaration Ast) := [
  .terminal "x", .nonterminal "S", .nonterminal "A", .production s (.replicate n y) .none,
  .production a [] .none]

def grammar (y : Symbol) (n : Nat) : Grammar Ast where
  terminals := ["$eof", "x"]
  nonterminals := ["$start", "S", "A"]
  productions := [
    ⟨.accept, .start, [.nonterminal s], .none⟩,
    ⟨⟨1⟩, s, .replicate n y, ⟨none :: .replicate n none, false⟩⟩,
    ⟨⟨2⟩, a, [], ⟨[none], false⟩⟩]
  startSymbol := s

def Repeatable (y : Symbol) : Prop := y = .terminal x ∨ y = .nonterminal a

variable {y : Symbol} {n : Nat}

theorem fitAttributes_none {body : List Symbol} :
    Draft.fitAttributes body (.none : Attributes Ast) =
      .ok ⟨none :: .replicate body.length none, false⟩ := by
  have hf : (.none : Attributes Ast).fit body.length =
      .ok ⟨none :: .replicate body.length none, false⟩ := by
    simp [Attributes.fit, Attributes.none, Attributes.inheritedPositions, List.rightpad]
  have hi : (⟨none :: .replicate body.length none, false⟩ : Attributes Ast).inheritedPositions = [] := by
    refine List.eq_nil_iff_forall_not_mem.mpr fun i hi => ?_
    have := (Attributes.mem_inheritedPositions.mp hi).right
    cases i <;> simp [Attributes.rule?, List.getElem?_replicate] at this
    split at this <;> simp at this
  simp [Draft.fitAttributes, hf, hi]

theorem declare_production (d : Draft Ast) {head : Nonterminal} {body : List Symbol}
    (hh : d.Declares head) (hb : ∀ z ∈ body, d.Usable z) (hn : ∀ p ∈ d.productions, p.head ≠ head) :
    Prod.snd <$> d.declare (.production head body .none) = .ok { d with
      productions := d.productions ++
        [⟨⟨d.productions.length⟩, head, body, ⟨none :: .replicate body.length none, false⟩⟩] } := by
  refine map_eq_ok.mpr ⟨⟨.production ⟨d.productions.length⟩, _⟩, ?_, rfl⟩
  simp only [Draft.declare, Draft.addProduction, bind_eq_ok]
  exact ⟨_, ⟨(), Draft.checkHead_eq_ok.mpr hh, (), Draft.checkBody_eq_ok.mpr hb, (),
    Draft.checkNew_eq_ok.mpr fun p hp he => hn p hp he.left, _, fitAttributes_none, rfl⟩, rfl⟩

theorem define_eq (hy : Repeatable y) : Grammar.define (declarations y n) = .ok (grammar y n) := by
  let d : Draft Ast := ⟨⟨["$eof", "x"], ["$start", "S", "A"]⟩, [⟨.accept, .start, [], .none⟩], none⟩
  have hbody : ∀ z ∈ List.replicate n y, d.Usable z := by
    intro z hz
    rw [(List.mem_replicate.mp hz).right]
    obtain rfl | rfl := hy <;> decide
  have hs := declare_production d (show d.Declares s by decide) hbody (by decide)
  rw [List.length_replicate] at hs
  let d' : Draft Ast := { d with
    productions := d.productions ++ [⟨⟨1⟩, s, .replicate n y, ⟨none :: .replicate n none, false⟩⟩] }
  have ha := declare_production d' (show d'.Declares a from show 2 < 3 by decide) (fun _ => List.not_mem_nil.elim)
    (by simp [d', d, s, a, Nonterminal.start])
  simp only [Grammar.define, declarations, List.foldlM_cons, List.foldlM_nil, bind_eq_ok]
  exact ⟨_, ⟨_, rfl, _, rfl, _, rfl, _, hs, _, ha, rfl⟩, rfl⟩

theorem augmented (hy : Repeatable y) : (grammar y n).Augmented := Grammar.augmented_of_define (define_eq hy)

theorem production?_body : (grammar y n).production? ⟨1⟩ =
    some ⟨⟨1⟩, s, .replicate n y, ⟨none :: .replicate n none, false⟩⟩ := rfl

theorem production?_empty : (grammar y n).production? ⟨2⟩ = some ⟨⟨2⟩, a, [], ⟨[none], false⟩⟩ := rfl

theorem next?_body {k : UInt16} (hn : UInt16.size ≤ n) : (⟨⟨1⟩, k⟩ : Center).next? (grammar y n) = some y := by
  rw [Center.next?_eq production?_body, List.getElem?_replicate, if_pos (Nat.lt_of_lt_of_le k.toNat_lt hn)]

theorem next?_empty {k : UInt16} : (⟨⟨2⟩, k⟩ : Center).next? (grammar y n) = none := by
  rw [Center.next?_eq production?_empty, List.getElem?_nil]

theorem rest_body {k : UInt16} :
    Center.rest (grammar y n) ⟨⟨1⟩, k⟩ = .replicate (n - (k.toNat + 1)) y := by
  simp [Center.rest, production?_body]

theorem derives_empty : (grammar y n).Derives [.nonterminal a] [] :=
  .production (Grammar.production?_mem production?_empty)

theorem derives_body : (grammar y n).Derives [.nonterminal s] (.replicate n y) :=
  .production (Grammar.production?_mem production?_body)

theorem exists_word (hy : Repeatable y) (m : Nat) :
    ∃ w, (grammar y n).Derives (.replicate m y) (Symbol.word w) := by
  have ⟨v, hv⟩ : ∃ v, (grammar y n).Derives [y] (Symbol.word v) := by
    obtain rfl | rfl := hy
    · exact ⟨[x], .refl⟩
    · exact ⟨[], derives_empty⟩
  induction m
  case zero => exact ⟨[], .refl⟩
  case succ m hi =>
    have ⟨w, hw⟩ := hi
    exact ⟨v ++ w, by simpa [List.replicate_succ] using hv.append hw⟩

theorem productive (hy : Repeatable y) : (grammar y n).Productive := by
  have ⟨w, hw⟩ := exists_word (n := n) hy n
  refine Grammar.productive_of_bodies ⟨w, derives_body.trans hw⟩ fun p hp m hm => ?_
  simp only [grammar, List.mem_cons, List.not_mem_nil, or_false] at hp
  obtain rfl | rfl | rfl := hp
  · obtain ⟨rfl⟩ := List.mem_singleton.mp hm
    exact ⟨w, derives_body.trans hw⟩
  · obtain rfl | rfl := hy <;> cases (List.mem_replicate.mp hm).right
    exact ⟨[], derives_empty⟩
  · contradiction

-- The centers of kernels. The marker never gets behind the repeated symbols.
inductive Marks : Center → Prop
  | front : Marks ⟨.accept, 0⟩
  | back : Marks ⟨.accept, 1⟩
  | body (k : UInt16) : Marks ⟨⟨1⟩, k⟩

-- What the closure of a center adds to it.
inductive Adds (y : Symbol) : Center → Center → Prop
  | kernel {c : Center} : Adds y c c
  | body : Adds y ⟨.accept, 0⟩ ⟨⟨1⟩, 0⟩
  | empty {c : Center} (hc : c ≠ ⟨.accept, 1⟩) (hy : y = .nonterminal a) : Adds y c ⟨⟨2⟩, 0⟩

def single (c : Center) : ItemSet := .ofList [⟨c, .singleton .eof⟩]

theorem derives_replicate {m : Nat} : (grammar y n).Derives (.replicate m (.nonterminal a)) [] := by
  induction m
  case zero => exact .refl
  case succ m hi => simpa [List.replicate_succ] using derives_empty.append hi

theorem localFirst_replicate {m : Nat} :
    ((grammar (.nonterminal a) n).firstSets.localFirst (.replicate m (.nonterminal a))
      (.singleton .eof)).terminals = .singleton .eof := by
  refine TerminalSet.ext_mem fun t => ?_
  rw [FirstSets.mem_localFirst]
  refine ⟨fun ht => ?_, fun ht => .inr ⟨derives_replicate.epsilon, ht⟩⟩
  obtain ht | ⟨_, ht⟩ := ht
  · -- No body holds a terminal.
    have ⟨β, hβ⟩ := Grammar.sound_firstSets.sequence ht
    have hs := hβ.forall_mem (P := fun z => ∃ m, z = .nonterminal m) (fun p hp z hz => ?_)
      (fun z hz => ⟨a, (List.mem_replicate.mp hz).right⟩) (.terminal t) List.mem_cons_self
    · cases hs.choose_spec
    · simp only [grammar, List.mem_cons, List.not_mem_nil, or_false] at hp
      obtain rfl | rfl | rfl := hp
      · exact ⟨s, List.mem_singleton.mp hz⟩
      · exact ⟨a, (List.mem_replicate.mp hz).right⟩
      · contradiction
  · exact ht

variable {c b : Center} {items kernel : ItemSet}

theorem productionsOf_start : (grammar y n).productionsOf s =
    [⟨⟨1⟩, s, .replicate n y, ⟨none :: .replicate n none, false⟩⟩] := rfl

theorem productionsOf_empty : (grammar y n).productionsOf a = [⟨⟨2⟩, a, [], ⟨[none], false⟩⟩] := rfl

-- What the long body predicts, there is no terminal to follow but those that follow the body.
theorem predicted_body {m : Nonterminal} {k : UInt16} {p : Production Ast} (hy : Repeatable y)
    (hn : UInt16.size ≤ n) (hm : (⟨⟨1⟩, k⟩ : Center).next? (grammar y n) = some (.nonterminal m))
    (hp : p ∈ (grammar y n).productionsOf m) :
    y = .nonterminal a ∧ p.id = ⟨2⟩ ∧
      ((grammar y n).firstSets.localFirst (Center.rest (grammar y n) ⟨⟨1⟩, k⟩)
        (.singleton .eof)).terminals = .singleton .eof := by
  rw [next?_body hn] at hm
  obtain rfl | rfl := hy <;> cases hm
  rw [productionsOf_empty, List.mem_singleton] at hp
  refine ⟨rfl, congrArg Production.id hp, ?_⟩
  rw [rest_body]
  exact localFirst_replicate

theorem found_cases {i : Item} (hy : Repeatable y) (hn : UInt16.size ≤ n) (hc : Marks c)
    (h : i.Found (grammar y n) (grammar y n).firstSets (single c).items) :
    Adds y c i.center ∧ i.lookaheads = .singleton .eof := by
  induction h
  case given i hi =>
    obtain rfl : i = ⟨c, .singleton .eof⟩ := List.mem_singleton.mp hi
    exact ⟨.kernel, rfl⟩
  case predicted i j is _ he hj ih =>
    obtain ⟨m, hm, p, hp, rfl⟩ := (Item.mem_expand he).mp hj
    obtain ⟨d, l⟩ := i
    obtain ⟨ha, rfl⟩ := ih
    cases ha
    case body =>
      obtain ⟨ha, hid, hl⟩ := predicted_body hy hn hm hp
      exact ⟨hid ▸ .empty (by decide) ha, hl⟩
    case empty => cases next?_empty.symm.trans hm
    case kernel =>
      cases hc
      case front =>
        cases hm
        cases List.mem_singleton.mp (productionsOf_start ▸ hp)
        exact ⟨.body, rfl⟩
      case back => cases hm
      case body k =>
        obtain ⟨ha, hid, hl⟩ := predicted_body hy hn hm hp
        exact ⟨hid ▸ .empty (by simp [ProductionId.accept]) ha, hl⟩

variable {d : Center} {z : Symbol}

theorem marks_advance (hc : Marks c) (hb : Adds y c b) (hz : b.next? (grammar y n) = some z) :
    Marks b.advance := by
  cases hb
  case body => exact .body _
  case empty => cases next?_empty.symm.trans hz
  case kernel =>
    cases hc
    case front => exact .back
    case back => cases hz
    case body k => exact .body _

-- No symbol comes next in two centers.
theorem adds_unique (hy : Repeatable y) (hn : UInt16.size ≤ n) (hb : Adds y c b) (hd : Adds y c d)
    (hbz : b.next? (grammar y n) = some z) (hdz : d.next? (grammar y n) = some z) : b = d := by
  have hs : y ≠ .nonterminal s := by obtain rfl | rfl := hy <;> decide
  cases hb
  case empty => cases next?_empty.symm.trans hbz
  case kernel =>
    cases hd
    case kernel => rfl
    case body =>
      cases hbz
      exact absurd (Option.some.inj ((next?_body hn).symm.trans hdz)) hs
    case empty => cases next?_empty.symm.trans hdz
  case body =>
    cases hd
    case kernel =>
      cases hdz
      exact absurd (Option.some.inj ((next?_body hn).symm.trans hbz)) hs
    case body => rfl
    case empty => cases next?_empty.symm.trans hdz

-- What the states hold.
structure Lone (y : Symbol) (c : Center) (items : ItemSet) : Prop where
  adds : ∀ b ∈ items, Adds y c b
  lookahead : ∀ b t, items.Holds b t ↔ b ∈ items ∧ t = .eof

theorem lone_of_closure (hy : Repeatable y) (hn : UInt16.size ≤ n) (hc : Marks c)
    (h : (single c).closure (grammar y n) (grammar y n).firstSets = .ok items) : Lone y c items where
  adds b hb := by
    obtain ⟨i, hi, rfl⟩ := ((ItemSet.closure_spec h).mem b).mp hb
    exact (found_cases hy hn hc hi).left
  lookahead b t := by
    rw [(ItemSet.closure_spec h).holds, (ItemSet.closure_spec h).mem]
    constructor
    case mp =>
      intro ⟨i, hi, hb, ht⟩
      rw [(found_cases hy hn hc hi).right, TerminalSet.mem_singleton] at ht
      exact ⟨⟨i, hi, hb⟩, ht⟩
    case mpr =>
      rintro ⟨⟨i, hi, hb⟩, rfl⟩
      exact ⟨i, hi, hb, by rw [(found_cases hy hn hc hi).right, TerminalSet.mem_singleton]⟩

theorem mem_single : b ∈ single c ↔ b = c := by
  simp [single, ItemSet.mem_ofList, eq_comm]

theorem holds_single {t : Terminal} : (single c).Holds b t ↔ b = c ∧ t = .eof := by
  simp [single, ItemSet.holds_ofList, eq_comm]

theorem Lone.advance (hy : Repeatable y) (hn : UInt16.size ≤ n) (h : Lone y c items) (hb : b ∈ items)
    (hz : b.next? (grammar y n) = some z) : items.advance (grammar y n) z = single b.advance := by
  have mem_iff (d : Center) (hd : d ∈ items) (hdz : d.next? (grammar y n) = some z) : d = b :=
    adds_unique hy hn (h.adds d hd) (h.adds b hb) hdz hz
  apply ItemSet.Included.antisymm
  case h₁ =>
    refine { centers := fun e he => ?centers, lookaheads := fun e t he => ?lookaheads }
    case centers =>
      obtain ⟨d, hd, hdz, rfl⟩ := ItemSet.mem_advance.mp he
      exact mem_single.mpr (mem_iff d hd hdz ▸ rfl)
    case lookaheads =>
      obtain ⟨d, hd, hdz, rfl⟩ := ItemSet.holds_advance.mp he
      have ⟨hm, ht⟩ := (h.lookahead d t).mp hd
      exact holds_single.mpr ⟨mem_iff d hm hdz ▸ rfl, ht⟩
  case h₂ =>
    refine { centers := fun e he => ?centers, lookaheads := fun e t he => ?lookaheads }
    case centers => exact ItemSet.mem_advance.mpr ⟨b, hb, hz, (mem_single.mp he).symm⟩
    case lookaheads =>
      have ⟨he, ht⟩ := holds_single.mp he
      exact ItemSet.holds_advance.mpr ⟨b, (h.lookahead b t).mpr ⟨hb, ht⟩, hz, he.symm⟩

-- The last place that there is a number for comes before the first one.
theorem advance_to_front :
    (single ⟨⟨1⟩, 65535⟩).items = [⟨⟨⟨1⟩, 65535⟩, .singleton .eof⟩] ∧
      (⟨⟨1⟩, 65535⟩ : Center).next? (grammar (.terminal x) UInt16.size) = some (.terminal x) ∧
      ((single ⟨⟨1⟩, 65535⟩).advance (grammar (.terminal x) UInt16.size) (.terminal x)).items =
        [⟨⟨⟨1⟩, 0⟩, .singleton .eof⟩] := by
  have hn := next?_body (y := .terminal x) (k := 65535) (Nat.le_refl UInt16.size)
  have hl : Lone (.terminal x) ⟨⟨1⟩, 65535⟩ (single ⟨⟨1⟩, 65535⟩) := {
    adds := fun b hb => mem_single.mp hb ▸ .kernel
    lookahead := fun b t => by rw [holds_single, mem_single] }
  have ha := hl.advance (.inl rfl) (Nat.le_refl UInt16.size) (mem_single.mpr rfl) hn
  exact ⟨rfl, hn, ha ▸ rfl⟩

theorem reachable_cases (hy : Repeatable y) (hn : UInt16.size ≤ n)
    (h : Exploration.Reachable (grammar y n) kernel) : ∃ c, Marks c ∧ kernel = single c := by
  induction h
  case root => exact ⟨_, .front, rfl⟩
  case advance kernel items z _ hc hx ih =>
    obtain ⟨c, hm, rfl⟩ := ih
    have hl := lone_of_closure hy hn hm hc
    have ⟨_, b, hb, hz⟩ := ItemSet.mem_outgoing_iff.mp hx
    exact ⟨b.advance, marks_advance hm (hl.adds b hb) hz, hl.advance hy hn hb hz⟩

def centers : List Center :=
  ⟨.accept, 0⟩ :: ⟨.accept, 1⟩ :: (List.range UInt16.size).map (⟨⟨1⟩, .ofNat ·⟩)

theorem Marks.mem_centers (hc : Marks c) : c ∈ centers := by
  cases hc
  case front => exact .head _
  case back => exact .tail _ (.head _)
  case body k =>
    have hk : k.toNat ∈ List.range UInt16.size := List.mem_range.mpr k.toNat_lt
    exact .tail _ (.tail _ (List.mem_map.mpr ⟨k.toNat, hk, by rw [UInt16.ofNat_toNat]⟩))

theorem length_centers : centers.length = UInt16.size + 2 := by
  rw [centers, List.length_cons, List.length_cons, List.length_map, List.length_range]

-- There is a number for every state.
theorem not_crowded (hy : Repeatable y) (hn : UInt16.size ≤ n) :
    ¬ Exploration.Crowded (grammar y n) := by
  have hl : (centers.map single).length ≤ Exploration.capacity := by
    rw [List.length_map, length_centers]
    decide
  refine Exploration.not_crowded hl fun kernel h => ?_
  obtain ⟨c, hc, rfl⟩ := reachable_cases hy hn h
  exact List.mem_map_of_mem hc.mem_centers

theorem exists_build (hy : Repeatable y) (hn : UInt16.size ≤ n) : ∃ a, build (grammar y n) = .ok a := by
  have hg := augmented (n := n) hy
  have hp := productive (n := n) hy
  refine (build_cases (Grammar.length_productionsOf_start (define_eq hy))
    fun s hs => (hs.live hg hp).exists_closure hg hp).resolve_right ?_
  exact fun h => not_crowded hy hn h.right

section

variable {automaton : Automaton} {q : StateId} {state : State} {t : Terminal} {v w : Table.Action}

theorem exists_marks (hy : Repeatable y) (hn : UInt16.size ≤ n)
    (hb : build (grammar y n) = .ok automaton) (hs : automaton.state? q = some state) :
    ∃ c, Marks c ∧ Lone y c state.items := by
  have hm := List.mem_of_getElem? hs
  have ⟨c, hc, hk⟩ := reachable_cases hy hn (reachable_of_build hb state hm)
  exact ⟨c, hc, lone_of_closure hy hn hc (hk ▸ (build_canonical hb).closed state hm)⟩

theorem adds_cases (hc : Marks c) (hb : Adds y c b) : c = ⟨.accept, 1⟩ ∧ b = ⟨.accept, 1⟩ ∨
    c ≠ ⟨.accept, 1⟩ ∧
      (b = ⟨.accept, 0⟩ ∨ (∃ k, b = ⟨⟨1⟩, k⟩) ∨ y = .nonterminal a ∧ b = ⟨⟨2⟩, 0⟩) := by
  cases hb
  case body => exact .inr ⟨by decide, .inr (.inl ⟨0, rfl⟩)⟩
  case empty hy hc => exact .inr ⟨hc, .inr (.inr ⟨hy, rfl⟩)⟩
  case kernel =>
    cases hc
    case front => exact .inr ⟨by decide, .inl rfl⟩
    case back => exact .inl ⟨rfl, rfl⟩
    case body k => exact .inr ⟨by simp [ProductionId.accept], .inr (.inl ⟨k, rfl⟩)⟩

-- What a state does in front of a terminal depends on its kernel and on the symbol that is repeated.
theorem action_cases (hn : UInt16.size ≤ n) (hs : automaton.state? q = some state) (hc : Marks c)
    (hl : Lone y c state.items) (hv : v ∈ (Table.ofAutomaton (grammar y n) automaton).actions q t) :
    c = ⟨.accept, 1⟩ ∧ v = .accept ∨
      c ≠ ⟨.accept, 1⟩ ∧ ((∃ q', state.target? t = some q' ∧ y = .terminal t ∧ v = .shift q') ∨
        y = .nonterminal a ∧ v = .reduce ⟨2⟩ a 0) := by
  cases v
  case shift q' =>
    obtain ⟨_, hs', hq, b, hb, hbt⟩ := Table.mem_actions_shift.mp hv
    cases hs.symm.trans hs'
    obtain ⟨_, rfl⟩ | ⟨hne, rfl | ⟨k, rfl⟩ | ⟨_, rfl⟩⟩ := adds_cases hc (hl.adds b hb)
    · cases hbt
    · cases hbt
    · exact .inr ⟨hne, .inl ⟨q', hq, Option.some.inj ((next?_body hn).symm.trans hbt), rfl⟩⟩
    · cases next?_empty.symm.trans hbt
  case reduce id m length =>
    obtain ⟨_, hs', b, p, hb, hbn, hacc, hp, rfl, rfl, rfl⟩ := Table.mem_actions_reduce.mp hv
    cases hs.symm.trans hs'
    obtain ⟨_, rfl⟩ | ⟨hne, rfl | ⟨k, rfl⟩ | ⟨hy, rfl⟩⟩ := adds_cases hc (hl.adds b hb.mem)
    · exact absurd rfl hacc
    · exact absurd rfl hacc
    · cases (next?_body hn).symm.trans hbn
    · cases production?_empty.symm.trans hp
      exact .inr ⟨hne, .inr ⟨hy, rfl⟩⟩
  case accept =>
    obtain ⟨_, _, hs', b, hb, hacc, hbn⟩ := Table.mem_actions_accept.mp hv
    cases hs.symm.trans hs'
    obtain ⟨hc, _⟩ | ⟨_, rfl | ⟨k, rfl⟩ | ⟨_, rfl⟩⟩ := adds_cases hc (hl.adds b hb)
    · exact .inl ⟨hc, rfl⟩
    · cases hbn
    · cases hacc
    · cases hacc

theorem conflicts_eq (hy : Repeatable y) (hn : UInt16.size ≤ n)
    (hb : build (grammar y n) = .ok automaton) :
    (Table.ofAutomaton (grammar y n) automaton).conflicts = [] := by
  refine List.eq_nil_iff_forall_not_mem.mpr fun k hk => ?_
  obtain ⟨⟨v, w, hne, hv, hw⟩, _⟩ := Table.mem_conflicts.mp hk
  have ⟨state, hs, _⟩ := Table.mem_actions.mp hv
  have ⟨c, hc, hl⟩ := exists_marks hy hn hb hs
  refine hne ?_
  obtain ⟨h, rfl⟩ | ⟨h, ⟨q, hq, rfl, rfl⟩ | ⟨rfl, rfl⟩⟩ := action_cases hn hs hc hl hv
  · obtain ⟨_, rfl⟩ | ⟨h', _⟩ := action_cases hn hs hc hl hw
    · rfl
    · exact absurd h h'
  · obtain ⟨h', _⟩ | ⟨_, ⟨q', hq', _, rfl⟩ | ⟨ht, _⟩⟩ := action_cases hn hs hc hl hw
    · exact absurd h' h
    · cases hq.symm.trans hq'
      rfl
    · cases ht
  · obtain ⟨h', _⟩ | ⟨_, ⟨_, _, ht, _⟩ | ⟨_, rfl⟩⟩ := action_cases hn hs hc hl hw
    · exact absurd h' h
    · cases ht
    · rfl

theorem exists_compile (hy : Repeatable y) (hn : UInt16.size ≤ n) :
    ∃ automaton, Canonical (grammar y n) automaton ∧
      Table.compile (grammar y n) = .ok (.ofAutomaton (grammar y n) automaton) ∧
      (Table.ofAutomaton (grammar y n) automaton).conflicts = [] := by
  have ⟨automaton, hb⟩ := exists_build hy hn
  exact ⟨automaton, build_canonical hb, Table.compile_eq_ok.mpr ⟨automaton, hb, rfl⟩, conflicts_eq hy hn hb⟩

end

end Example.Overlong
end CanonicalLR
