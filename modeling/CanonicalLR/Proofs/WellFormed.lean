import CanonicalLR.Example.Ast
import CanonicalLR.Proofs.Augmentation
import Mathlib.Data.List.Nodup

namespace CanonicalLR

variable {V : Type}

-- Elements of a list without duplicates are found at their places.
theorem findIdx?_eq_some_of_nodup {α : Type} [BEq α] [LawfulBEq α] {l : List α} {x : α} {i : Nat}
    (h : l.Nodup) : l.findIdx? (· == x) = some i ↔ l[i]? = some x := by
  rw [List.findIdx?_eq_some_iff_getElem, List.getElem?_eq_some_iff]
  refine exists_congr fun hi => ⟨fun hx => eq_of_beq hx.left, fun hx => ⟨by simp [hx], fun j hj => ?_⟩⟩
  have hne : l[j] ≠ l[i] := fun he => absurd (h.getElem_inj_iff.mp he) (by omega)
  simpa [hx] using hne

namespace Vocabulary

variable {v : Vocabulary} {name : String}

theorem terminal?_eq_some {t : Terminal} (h : v.terminals.Nodup) :
    v.terminal? name = some t ↔ v.Declares t ∧ v.symbolName t = name := by
  have hi : v.terminal? name = some t ↔ v.terminals.findIdx? (· == name) = some t.index := by
    cases t
    simp [terminal?]
  rw [hi, findIdx?_eq_some_of_nodup h]
  simp only [Declares, symbolName, terminalName]
  grind

theorem nonterminal?_eq_some {n : Nonterminal} (h : v.nonterminals.Nodup) :
    v.nonterminal? name = some n ↔ v.Declares n ∧ v.symbolName n = name := by
  have hi : v.nonterminal? name = some n ↔ v.nonterminals.findIdx? (· == name) = some n.index := by
    cases n
    simp [nonterminal?]
  rw [hi, findIdx?_eq_some_of_nodup h]
  simp only [Declares, symbolName, nonterminalName]
  grind

end Vocabulary

namespace Attributes

variable {a b : Attributes V} {body : List Symbol} {n i : Nat}

-- One slot for the head and one for each symbol of the body, of which only nonterminals inherit.
structure Fits (a : Attributes V) (body : List Symbol) : Prop where
  length : a.length = body.length + 1
  head : a.inheritedOnHead = false
  inherited : ∀ i ∈ a.inheritedPositions, 0 < i ∧ ∃ n : Nonterminal, body[i - 1]? = some (.nonterminal n)

theorem inheritedOnHead_fit (h : a.fit n = .ok b) : b.inheritedOnHead = false := by
  unfold fit at h
  split at h
  case isTrue => contradiction
  case isFalse hh =>
    split at h <;> cases h
    simpa using hh

theorem lt_length_of_isSome (h : (a.rule? i).isSome) : i < a.length := by
  by_contra hn
  rw [rule?, List.getElem?_eq_none (Nat.le_of_not_lt hn)] at h
  contradiction

end Attributes

theorem Draft.fits_of_fitAttributes {body : List Symbol} {a b : Attributes V}
    (h : fitAttributes body a = .ok b) : b.Fits body := by
  simp only [fitAttributes] at h
  split at h
  case h_1 => contradiction
  case h_2 => contradiction
  case h_3 fitted hfit =>
    split at h <;> cases h
    have hterminal := List.find?_eq_none.mp ‹_›
    have hlength := Attributes.length_fit hfit
    refine ⟨hlength, Attributes.inheritedOnHead_fit hfit, fun i hi => ?_⟩
    have ⟨hpos, hrule⟩ := Attributes.mem_inheritedPositions.mp hi
    have hlt := Attributes.lt_length_of_isSome hrule
    refine ⟨hpos, ?_⟩
    have hbody : body[i - 1]? = some body[i - 1] := List.getElem?_eq_getElem (by omega)
    have hi := hterminal i hi
    rw [hbody] at hi ⊢
    cases hs : body[i - 1]
    case terminal => simp [hs] at hi
    case nonterminal n => exact ⟨n, rfl⟩

-- The head and the body, by which productions are told apart.
def Production.rule (p : Production V) : Nonterminal × List Symbol := (p.head, p.body)

namespace Draft

variable {d d' : Draft V} {x : Declaration V} {xs : List (Declaration V)} {r : Declared}

-- What the checks of declarations ensure.
structure Checked (d : Draft V) : Prop where
  named : ∀ name ∈ d.terminals ++ d.nonterminals, name ≠ ""
  distinct : (d.terminals ++ d.nonterminals).Nodup
  different : (d.productions.map Production.rule).Nodup
  fits : ∀ p ∈ d.productions, p.id ≠ .accept → p.attributes.Fits p.body

namespace Checked

theorem empty : (empty : Draft V).Checked where
  named := by simp [Draft.empty]
  distinct := by simp [Draft.empty]
  different := by simp [Draft.empty]
  fits := by simp [Draft.empty]

theorem insert {name : String} (h : d.Checked) (hname : name ≠ "")
    (hnew : name ∉ d.terminals ∧ name ∉ d.nonterminals)
    (hperm : (d'.terminals ++ d'.nonterminals).Perm (name :: (d.terminals ++ d.nonterminals)))
    (hp : d'.productions = d.productions) : d'.Checked where
  named other hm := by
    obtain rfl | hm := List.mem_cons.mp (hperm.mem_iff.mp hm)
    · exact hname
    · exact h.named other hm
  distinct := by
    rw [hperm.nodup_iff, List.nodup_cons, List.mem_append, not_or]
    exact ⟨hnew, h.distinct⟩
  different := hp ▸ h.different
  fits := hp ▸ h.fits

theorem concat {p : Production V} (h : d.Checked) (hp : ∀ q ∈ d.productions, q.rule ≠ p.rule)
    (hf : p.attributes.Fits p.body) : Checked { d with productions := d.productions ++ [p] } where
  named := h.named
  distinct := h.distinct
  different := by
    rw [List.map_append, List.map_singleton, ← List.concat_eq_append, List.nodup_concat]
    refine ⟨fun hm => ?_, h.different⟩
    have ⟨q, hq, he⟩ := List.mem_map.mp hm
    exact hp q hq he
  fits q hq hi := by
    obtain hq | hq := List.mem_append.mp hq
    · exact h.fits q hq hi
    · exact List.mem_singleton.mp hq ▸ hf

theorem declare (h : d.Checked) (hd : d.declare x = .ok (r, d')) : d'.Checked := by
  have hx := declare_eq_ok hd
  cases x
  case terminal =>
    obtain ⟨⟨hname, hnew⟩, rfl⟩ := hx
    exact h.insert hname hnew (by simp) rfl
  case nonterminal =>
    obtain ⟨⟨hname, hnew⟩, rfl⟩ := hx
    exact h.insert hname hnew (by simp [← List.append_assoc]) rfl
  case production head body attributes =>
    obtain ⟨_, _, hnew, fitted, hf, rfl⟩ := hx
    refine h.concat (fun p hp he => hnew p hp ?_) (fits_of_fitAttributes hf)
    exact Prod.mk.inj he
  case start =>
    obtain ⟨_, rfl⟩ := hx
    exact { h with }

theorem declareAll (h : d.Checked) (hd : xs.foldlM (fun d x => Prod.snd <$> d.declare x) d = .ok d') :
    d'.Checked :=
  invariant_of_declareAll Checked.declare h hd

end Checked

-- The augmenting production comes first.
theorem Consistent.exists_cons (h : d.Consistent) : ∃ a ps, d.productions = a :: ps ∧ a.id = .accept ∧
    a.head = .start ∧ ∀ p ∈ ps, p.id ≠ .accept := by
  have ⟨a, ha, hs⟩ := h.accept
  obtain ⟨ps, hps⟩ : ∃ ps, d.productions = a :: ps := List.head?_eq_some_iff.mp (List.head?_eq_getElem? ▸ ha)
  refine ⟨a, ps, hps, h.ids 0 a ha, hs, fun p hp => ?_⟩
  have ⟨i, hi⟩ := List.getElem?_of_mem hp
  rw [h.ids (i + 1) p (by rw [hps, List.getElem?_cons_succ, hi])]
  simp [ProductionId.accept]

end Draft

-- What some declarations introduce.
namespace Declaration

def terminal? : Declaration V → Option String
  | terminal name => some name
  | _ => none

def nonterminal? : Declaration V → Option String
  | nonterminal name => some name
  | _ => none

def rule? : Declaration V → Option (Nonterminal × List Symbol)
  | production head body _ => some (head, body)
  | _ => none

end Declaration

namespace Draft

variable {d d' : Draft V} {x : Declaration V} {xs : List (Declaration V)} {r : Declared}

structure Records (d : Draft V) (xs : List (Declaration V)) (d' : Draft V) : Prop where
  terminals : d'.terminals = d.terminals ++ xs.filterMap Declaration.terminal?
  nonterminals : d'.nonterminals = d.nonterminals ++ xs.filterMap Declaration.nonterminal?
  rules : d'.productions.map Production.rule =
    d.productions.map Production.rule ++ xs.filterMap Declaration.rule?

theorem records_declare (hd : d.declare x = .ok (r, d')) : d.Records [x] d' := by
  have hx := declare_eq_ok hd
  cases x
  case terminal =>
    obtain ⟨_, rfl⟩ := hx
    constructor <;> simp [Declaration.terminal?, Declaration.nonterminal?, Declaration.rule?]
  case nonterminal =>
    obtain ⟨_, rfl⟩ := hx
    constructor <;> simp [Declaration.terminal?, Declaration.nonterminal?, Declaration.rule?]
  case production =>
    obtain ⟨_, _, _, _, _, rfl⟩ := hx
    constructor <;> simp [Declaration.terminal?, Declaration.nonterminal?, Declaration.rule?, Production.rule]
  case start =>
    obtain ⟨_, rfl⟩ := hx
    constructor <;> simp [Declaration.terminal?, Declaration.nonterminal?, Declaration.rule?]

theorem records_declareAll (hd : xs.foldlM (fun d x => Prod.snd <$> d.declare x) d = .ok d') :
    d.Records xs d' := by
  induction xs generalizing d
  case nil =>
    cases hd
    constructor <;> simp
  case cons x xs hi =>
    simp only [List.foldlM_cons, bind_eq_ok, map_eq_ok] at hd
    obtain ⟨_, ⟨⟨_, _⟩, hx, rfl⟩, hd⟩ := hd
    have hx := records_declare hx
    have hxs := hi hd
    rw [← List.singleton_append]
    exact {
      terminals := by rw [hxs.terminals, hx.terminals, List.filterMap_append, List.append_assoc]
      nonterminals := by rw [hxs.nonterminals, hx.nonterminals, List.filterMap_append, List.append_assoc]
      rules := by rw [hxs.rules, hx.rules, List.filterMap_append, List.append_assoc] }

end Draft

namespace Grammar

structure WellFormed (g : Grammar V) : Prop where
  ids : g.productions.map Production.id = (List.range g.productions.length).map .mk
  lookup : ∀ id p, g.production? id = some p ↔ p ∈ g.productions ∧ p.id = id
  named : ∀ name ∈ g.terminals ++ g.nonterminals, name ≠ ""
  distinct : (g.terminals ++ g.nonterminals).Nodup
  terminals : ∀ name (t : Terminal), g.terminal? name = some t ↔ g.Declares t ∧ g.symbolName t = name
  nonterminals : ∀ name (n : Nonterminal),
    g.nonterminal? name = some n ↔ g.Declares n ∧ g.symbolName n = name
  heads : ∀ p ∈ g.productions, g.Declares p.head
  bodies : ∀ p ∈ g.productions, ∀ s ∈ p.body, g.Declares s ∧ s ≠ .nonterminal .start
  different : (g.productions.map Production.rule).Nodup
  accept : ∃ p, g.productions[0]? = some p ∧ p.id = .accept ∧ p.rule = (.start, [.nonterminal g.startSymbol])
  start : ∀ p ∈ g.productions, p.head = .start → p.id = .accept
  startSymbol : g.Declares g.startSymbol ∧ g.startSymbol ≠ .start
  fits : ∀ p ∈ g.productions, p.id ≠ .accept → p.attributes.Fits p.body

-- Symbols and productions are numbered in the order of their declaration.
structure Records (g : Grammar V) (xs : List (Declaration V)) : Prop where
  terminals : g.terminals = "$eof" :: xs.filterMap Declaration.terminal?
  nonterminals : g.nonterminals = "$start" :: xs.filterMap Declaration.nonterminal?
  rules : g.productions.map Production.rule =
    (.start, [.nonterminal g.startSymbol]) :: xs.filterMap Declaration.rule?

end Grammar

namespace Draft

variable {d : Draft V} {g : Grammar V}

theorem Consistent.map_id (h : d.Consistent) :
    d.productions.map Production.id = (List.range d.productions.length).map .mk := by
  refine List.ext_getElem (by simp) fun i hi _ => ?_
  have hi : i < d.productions.length := by simpa using hi
  simpa using h.ids i d.productions[i] (List.getElem?_eq_getElem hi)

-- Finishing a draft changes the body of the augmenting production, after the checks have been made.
theorem Consistent.of_finish (hd : d.Consistent) (h : d.finish = .ok g) :
    g.toVocabulary = d.toVocabulary ∧ d.startSymbol = .ok g.startSymbol ∧
      ∃ a ps, d.productions = a :: ps ∧ a.id = .accept ∧ a.head = .start ∧ (∀ p ∈ ps, p.id ≠ .accept) ∧
        g.productions = { a with body := [.nonterminal g.startSymbol] } :: ps := by
  have ⟨a, ps, hps, hi, hs, hne⟩ := hd.exists_cons
  obtain ⟨n, hn, rfl, _⟩ := finish_eq_ok h
  have hfill : ps.map (·.fill n) = ps :=
    (List.map_congr_left fun p hp => if_neg (hne p hp)).trans (List.map_id ps)
  exact ⟨rfl, hn, a, ps, hps, hi, hs, hne, by rw [hps, List.map_cons, hfill, Production.fill, if_pos hi]⟩

theorem Checked.wellFormed (hk : d.Checked) (hd : d.Consistent) (h : d.finish = .ok g) : g.WellFormed := by
  have haugmented := hd.augmented h
  have ⟨hv, hn, a, ps, hps, hi, hs, hne, hg⟩ := hd.of_finish h
  have ht : g.terminals = d.terminals := congrArg Vocabulary.terminals hv
  have hnt : g.nonterminals = d.nonterminals := congrArg Vocabulary.nonterminals hv
  have hdistinct : (g.terminals ++ g.nonterminals).Nodup := by rw [ht, hnt]; exact hk.distinct
  have hmem p (hp : p ∈ g.productions) (hi : p.id ≠ .accept) : p ∈ ps := by
    rw [hg] at hp
    obtain rfl | hp := List.mem_cons.mp hp
    · contradiction
    · exact hp
  refine {
    ids := ?ids
    lookup := fun id p => ⟨fun h => ⟨Grammar.production?_mem h, Grammar.production?_id h⟩, ?lookup⟩
    named := by rw [ht, hnt]; exact hk.named
    distinct := hdistinct
    terminals := fun name t => Vocabulary.terminal?_eq_some hdistinct.of_append_left
    nonterminals := fun name n => Vocabulary.nonterminal?_eq_some hdistinct.of_append_right
    heads := haugmented.heads
    bodies := haugmented.bodies
    different := ?different
    accept := ⟨{ a with body := [.nonterminal g.startSymbol] }, hg ▸ rfl, hi, Prod.ext hs rfl⟩
    start := haugmented.start
    startSymbol := ?startSymbol
    fits := fun p hp hi => hk.fits p (by rw [hps]; exact .tail _ (hmem p hp hi)) hi }
  case ids =>
    have := hd.map_id
    rw [hps] at this
    rw [hg]
    simpa using this
  case lookup =>
    rintro ⟨hp, rfl⟩
    exact haugmented.lookup p hp
  case different =>
    -- Nothing else has the same head as the production that has been changed.
    have hps : (ps.map Production.rule).Nodup := (hps ▸ hk.different).of_cons
    rw [hg, List.map_cons, List.nodup_cons]
    refine ⟨fun hm => ?_, hps⟩
    have ⟨p, hp, he⟩ := List.mem_map.mp hm
    have hhead : p.head = .start := (Prod.mk.inj he).left.trans hs
    exact hne p hp (haugmented.start p (hg ▸ .tail _ hp) hhead)
  case startSymbol =>
    have ⟨hdeclared, hne⟩ := hd.startSymbol hn
    exact ⟨hv ▸ hdeclared, fun he => hne (congrArg _ he)⟩

theorem Records.of_finish {xs : List (Declaration V)} (h : empty.Records xs d) (hd : d.Consistent)
    (hf : d.finish = .ok g) : g.Records xs := by
  have ⟨hv, _, a, ps, hps, _, hs, _, hg⟩ := hd.of_finish hf
  have hrules := h.rules
  rw [hps, List.map_cons, Draft.empty, List.map_singleton, List.singleton_append] at hrules
  exact {
    terminals := (congrArg Vocabulary.terminals hv).trans h.terminals
    nonterminals := (congrArg Vocabulary.nonterminals hv).trans h.nonterminals
    rules := by rw [hg, List.map_cons, List.tail_eq_of_cons_eq hrules, Production.rule, hs] }

end Draft

theorem Grammar.wellFormed_of_define {g : Grammar V} {xs : List (Declaration V)} (h : define xs = .ok g) :
    g.WellFormed ∧ g.Records xs := by
  simp only [define, bind_eq_ok] at h
  obtain ⟨d, hd, hf⟩ := h
  have hconsistent := Draft.Consistent.empty.declareAll hd
  exact ⟨(Draft.Checked.empty.declareAll hd).wellFormed hconsistent hf,
    (Draft.records_declareAll hd).of_finish hconsistent hf⟩

end CanonicalLR
