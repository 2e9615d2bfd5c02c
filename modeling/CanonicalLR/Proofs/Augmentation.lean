import CanonicalLR.Grammar.Draft

namespace CanonicalLR

theorem bind_eq_ok {ε α β : Type} {x : Except ε α} {f : α → Except ε β} {b : β} :
    x >>= f = .ok b ↔ ∃ a, x = .ok a ∧ f a = .ok b := by
  cases x <;> simp [bind, Except.bind]

theorem map_eq_ok {ε α β : Type} {x : Except ε α} {f : α → β} {b : β} :
    f <$> x = .ok b ↔ ∃ a, x = .ok a ∧ f a = b := by
  cases x <;> simp [Functor.map, Except.map]

theorem bind_eq_error {ε α β : Type} {x : Except ε α} {f : α → Except ε β} {e : ε} :
    x >>= f = .error e ↔ x = .error e ∨ ∃ a, x = .ok a ∧ f a = .error e := by
  cases x <;> simp [bind, Except.bind]

theorem map_eq_error {ε α β : Type} {x : Except ε α} {f : α → β} {e : ε} :
    f <$> x = .error e ↔ x = .error e := by
  cases x <;> simp [Functor.map, Except.map]

-- Elements keep their places in a list that grows.
theorem getElem?_of_prefix {α : Type} {l l' : List α} {x : α} {i : Nat} (h : l <+: l')
    (hx : l[i]? = some x) : l'[i]? = some x := by
  have ⟨hl, _⟩ := List.getElem?_eq_some_iff.mp hx
  obtain ⟨_, rfl⟩ := h
  rwa [List.getElem?_append_left hl]

-- An element of a list that has grown by one was there before, or it is the one that has been added.
theorem getElem?_concat_cases {α : Type} {l : List α} {x y : α} {i : Nat}
    (h : (l ++ [x])[i]? = some y) : l[i]? = some y ∨ i = l.length ∧ x = y := by
  by_cases hi : i < l.length
  case pos => exact .inl (by rwa [List.getElem?_append_left hi] at h)
  case neg =>
    rw [List.getElem?_append_right (by omega), List.getElem?_singleton] at h
    split at h <;> cases h
    exact .inr ⟨by omega, rfl⟩

variable {V : Type}

namespace Draft

variable {d d' : Draft V} {name : String} {head : Nonterminal} {body : List Symbol}
variable {a : Attributes V}

-- What each check demands.

theorem checkName_eq_ok {u : Unit} :
    d.checkName name = .ok u ↔ name ≠ "" ∧ name ∉ d.terminals ∧ name ∉ d.nonterminals := by
  simp only [checkName]
  split
  case isTrue h => simp [h]
  case isFalse hn =>
    split
    case isTrue h =>
      simp only [reduceCtorEq, false_iff]
      exact fun hc => h.elim hc.right.left hc.right.right
    case isFalse h => simpa [hn, not_or] using h

theorem checkHead_eq_ok {u : Unit} : d.checkHead head = .ok u ↔ d.Declares head := by
  simp [checkHead]

theorem checkBody_eq_ok {u : Unit} : d.checkBody body = .ok u ↔ ∀ s ∈ body, d.Usable s := by
  simp only [checkBody]
  split
  case h_1 s h =>
    simp only [reduceCtorEq, false_iff]
    intro hu
    have := List.find?_some h
    have := hu s (List.mem_of_find?_eq_some h)
    simp_all
  case h_2 h => simpa using h

theorem checkNew_eq_ok {u : Unit} :
    d.checkNew head body = .ok u ↔ ∀ p ∈ d.productions, ¬ (p.head = head ∧ p.body = body) := by
  simp [checkNew]

-- What a successful declaration does to a draft.
theorem declare_eq_ok {x : Declaration V} {r : Declared} (h : d.declare x = .ok (r, d')) :
    match x with
    | .terminal name =>
      (name ≠ "" ∧ name ∉ d.terminals ∧ name ∉ d.nonterminals) ∧
      d' = { d with terminals := d.terminals ++ [name] }
    | .nonterminal name =>
      (name ≠ "" ∧ name ∉ d.terminals ∧ name ∉ d.nonterminals) ∧
      d' = { d with nonterminals := d.nonterminals ++ [name] }
    | .production head body attributes =>
      d.Declares head ∧ (∀ s ∈ body, d.Usable s) ∧
      (∀ p ∈ d.productions, ¬ (p.head = head ∧ p.body = body)) ∧
      ∃ fitted, fitAttributes body attributes = .ok fitted ∧
        d' = { d with productions := d.productions ++ [⟨⟨d.productions.length⟩, head, body, fitted⟩] }
    | .start symbol => d.Usable symbol ∧ d' = { d with start := some symbol } := by
  cases x
  case terminal name =>
    simp only [declare, addTerminal, bind_eq_ok, checkName_eq_ok] at h
    have ⟨_, ⟨_, hn, ht⟩, hd⟩ := h
    cases ht
    cases hd
    exact ⟨hn, rfl⟩
  case nonterminal name =>
    simp only [declare, addNonterminal, bind_eq_ok, checkName_eq_ok] at h
    have ⟨_, ⟨_, hn, ht⟩, hd⟩ := h
    cases ht
    cases hd
    exact ⟨hn, rfl⟩
  case production head body attributes =>
    simp only [declare, addProduction, bind_eq_ok, checkHead_eq_ok, checkBody_eq_ok,
      checkNew_eq_ok] at h
    have ⟨_, ⟨_, hh, _, hb, _, hn, fitted, hf, hp⟩, hd⟩ := h
    cases hp
    cases hd
    exact ⟨hh, hb, hn, fitted, hf, rfl⟩
  case start symbol =>
    simp only [declare, setStart, bind_eq_ok] at h
    have ⟨_, hs, hd⟩ := h
    split at hs <;> cases hs
    cases hd
    exact ⟨‹_›, rfl⟩

-- What holds of a draft at all times.
structure Consistent (d : Draft V) : Prop where
  ids : ∀ (i : Nat) (p : Production V), d.productions[i]? = some p → p.id = ⟨i⟩
  accept : ∃ p, d.productions[0]? = some p ∧ p.head = .start
  heads : ∀ p ∈ d.productions, d.Declares p.head
  bodies : ∀ p ∈ d.productions, ∀ s ∈ p.body, d.Usable s
  start : ∀ n, d.start = some n → d.Usable n

end Draft

-- Symbols stay declared while a vocabulary grows.
theorem Vocabulary.Declares.grow {v v' : Vocabulary} {s : Symbol} (h : v.Declares s)
    (ht : v.terminals.length ≤ v'.terminals.length)
    (hn : v.nonterminals.length ≤ v'.nonterminals.length) : v'.Declares s := by
  cases s
  case terminal => exact Nat.lt_of_lt_of_le h ht
  case nonterminal => exact Nat.lt_of_lt_of_le h hn

-- What every declaration preserves holds after all of them.
theorem Draft.invariant_of_declareAll {P : Draft V → Prop} {d d' : Draft V} {xs : List (Declaration V)}
    (hP : ∀ {d d' x r}, P d → d.declare x = .ok (r, d') → P d') (h : P d)
    (hd : xs.foldlM (fun d x => Prod.snd <$> d.declare x) d = .ok d') : P d' := by
  induction xs generalizing d
  case nil =>
    cases hd
    exact h
  case cons x xs hi =>
    simp only [List.foldlM_cons, bind_eq_ok, map_eq_ok] at hd
    obtain ⟨_, ⟨⟨_, _⟩, hx, rfl⟩, hd⟩ := hd
    exact hi (hP h hx) hd

namespace Draft.Consistent

variable {d d' : Draft V}

theorem empty : (empty : Draft V).Consistent where
  ids i p h := by
    cases i <;> simp [Draft.empty] at h
    exact h ▸ rfl
  accept := ⟨_, rfl, rfl⟩
  heads p h := by
    simp only [Draft.empty, List.mem_singleton] at h
    subst h
    exact Nat.zero_lt_one
  bodies p h := by
    simp only [Draft.empty, List.mem_singleton] at h
    simp [h]
  start := by simp [Draft.empty]

theorem grow (h : d.Consistent) (ht : d.terminals.length ≤ d'.terminals.length)
    (hn : d.nonterminals.length ≤ d'.nonterminals.length) (hp : d'.productions = d.productions)
    (hs : d'.start = d.start) : d'.Consistent where
  ids := hp ▸ h.ids
  accept := hp ▸ h.accept
  heads p hm := (h.heads p (hp ▸ hm)).grow ht hn
  bodies p hm s hb := (h.bodies p (hp ▸ hm) s hb).imp_left (·.grow ht hn)
  start n hm := (h.start n (hs ▸ hm)).imp_left (·.grow ht hn)

-- A production with the next identifier, of a declared head and of usable symbols.
theorem concat {p : Production V} (h : d.Consistent) (hi : p.id = ⟨d.productions.length⟩)
    (hh : d.Declares p.head) (hb : ∀ s ∈ p.body, d.Usable s) :
    Consistent { d with productions := d.productions ++ [p] } where
  ids i q hq := by
    obtain hq | ⟨rfl, rfl⟩ := getElem?_concat_cases hq
    · exact h.ids i q hq
    · exact hi
  accept := by
    have ⟨q, hq, hs⟩ := h.accept
    exact ⟨q, getElem?_of_prefix (List.prefix_append ..) hq, hs⟩
  heads q hq := by
    obtain hq | hq := List.mem_append.mp hq
    · exact h.heads q hq
    · exact List.mem_singleton.mp hq ▸ hh
  bodies q hq := by
    obtain hq | hq := List.mem_append.mp hq
    · exact h.bodies q hq
    · exact List.mem_singleton.mp hq ▸ hb
  start := h.start

theorem declare {x : Declaration V} {r : Declared} (h : d.Consistent)
    (hd : d.declare x = .ok (r, d')) : d'.Consistent := by
  have hx := declare_eq_ok hd
  cases x
  case terminal =>
    obtain ⟨_, rfl⟩ := hx
    exact h.grow (by simp) (by simp) rfl rfl
  case nonterminal =>
    obtain ⟨_, rfl⟩ := hx
    exact h.grow (by simp) (by simp) rfl rfl
  case production head body attributes =>
    obtain ⟨hh, hb, _, fitted, _, rfl⟩ := hx
    exact h.concat rfl hh hb
  case start symbol =>
    obtain ⟨hu, rfl⟩ := hx
    exact { h with start := fun n hn => by cases hn; exact hu }

theorem declareAll {xs : List (Declaration V)} (h : d.Consistent)
    (hd : xs.foldlM (fun d x => Prod.snd <$> d.declare x) d = .ok d') : d'.Consistent :=
  invariant_of_declareAll declare h hd

theorem startSymbol {n : Nonterminal} (h : d.Consistent) (hn : d.startSymbol = .ok n) :
    d.Usable n := by
  simp only [Draft.startSymbol] at hn
  split at hn
  case h_1 hs =>
    cases hn
    exact h.start _ hs
  case h_2 =>
    split at hn <;> cases hn
    exact ⟨‹_›, by simp [Nonterminal.start]⟩

end Draft.Consistent

namespace Grammar

structure Augmented (g : Grammar V) : Prop where
  lookup : ∀ p ∈ g.productions, g.production? p.id = some p
  accept : ∃ p, g.production? .accept = some p ∧ p.head = .start ∧ p.body = [.nonterminal g.startSymbol]
  start : ∀ p ∈ g.productions, p.head = .start → p.id = .accept
  heads : ∀ p ∈ g.productions, g.Declares p.head
  bodies : ∀ p ∈ g.productions, ∀ s ∈ p.body, g.Declares s ∧ s ≠ .nonterminal .start

-- The productions speak of declared symbols only. Unlike the rest of an augmented grammar, this is kept
-- no matter which productions are removed.
structure Scoped (g : Grammar V) : Prop where
  heads : ∀ p ∈ g.productions, g.Declares p.head
  bodies : ∀ p ∈ g.productions, ∀ s ∈ p.body, g.Declares s

variable {g : Grammar V} {removed : List ProductionId}

theorem Augmented.scoped (hg : g.Augmented) : g.Scoped where
  heads := hg.heads
  bodies p hp s hs := (hg.bodies p hp s hs).left

theorem mem_remove {p : Production V} :
    p ∈ (g.remove removed).productions ↔ p ∈ g.productions ∧ p.id ∉ removed := by
  simp [remove]

@[simp]
theorem remove_nil : g.remove [] = g := by
  have : g.productions.filter (·.id ∉ []) = g.productions := List.filter_eq_self.mpr (by simp)
  rw [remove, this]

theorem Scoped.remove (hg : g.Scoped) : (g.remove removed).Scoped where
  heads p hp := hg.heads p (mem_remove.mp hp).left
  bodies p hp := hg.bodies p (mem_remove.mp hp).left

theorem production?_remove {id : ProductionId} (h : id ∉ removed) :
    (g.remove removed).production? id = g.production? id := by
  rw [production?, remove, List.find?_filter, production?]
  congr 1
  funext p
  by_cases hp : p.id = id
  case pos => simp [hp, h]
  case neg => simp [hp]

theorem Augmented.remove (hg : g.Augmented) (h : .accept ∉ removed) : (g.remove removed).Augmented where
  lookup p hp := by
    have ⟨hp, hr⟩ := mem_remove.mp hp
    rw [production?_remove hr, hg.lookup p hp]
  accept := by
    rw [production?_remove h]
    exact hg.accept
  start p hp := hg.start p (mem_remove.mp hp).left
  heads p hp := hg.heads p (mem_remove.mp hp).left
  bodies p hp := hg.bodies p (mem_remove.mp hp).left

-- Productions that are numbered by their places are found by their identifiers.
theorem lookup_of_ids (h : ∀ (i : Nat) (p : Production V), g.productions[i]? = some p → p.id = ⟨i⟩)
    {p : Production V} (hp : p ∈ g.productions) : g.production? p.id = some p := by
  have ⟨i, hi⟩ := List.getElem?_of_mem hp
  cases hf : g.production? p.id
  case none =>
    have := List.find?_eq_none.mp hf p hp
    simp at this
  case some q =>
    have ⟨j, hj⟩ := List.getElem?_of_mem (production?_mem hf)
    have hij : (⟨i⟩ : ProductionId) = ⟨j⟩ := by
      rw [← h i p hi, ← h j q hj, production?_id hf]
    cases hij
    rw [← hi, ← hj]

end Grammar

-- The augmenting production gets its body when a draft is finished; the others stay as they are.
def Production.fill (start : Nonterminal) (p : Production V) : Production V :=
  if p.id = .accept then { p with body := [.nonterminal start] } else p

namespace Production

variable {n : Nonterminal} {p : Production V}

@[simp]
theorem fill_id : (p.fill n).id = p.id := by
  simp only [fill]
  split <;> rfl

@[simp]
theorem fill_head : (p.fill n).head = p.head := by
  simp only [fill]
  split <;> rfl

end Production

namespace Draft

variable {d : Draft V} {g : Grammar V}

theorem finish_eq_ok (h : d.finish = .ok g) :
    ∃ n, d.startSymbol = .ok n ∧ g = ⟨d.toVocabulary, d.productions.map (·.fill n), n⟩ ∧
      (g.productions.filter (·.head = .start)).length = 1 := by
  simp only [finish, bind_eq_ok] at h
  have ⟨n, hn, h⟩ := h
  split at h <;> cases h
  exact ⟨n, hn, rfl, ‹_›⟩

theorem Consistent.augmented (hd : d.Consistent) (h : d.finish = .ok g) : g.Augmented := by
  obtain ⟨n, hn, rfl, hc⟩ := finish_eq_ok h
  have ⟨a, ha, hs⟩ := hd.accept
  have hi : a.id = .accept := hd.ids 0 a ha
  have hm : a.fill n ∈ d.productions.map (·.fill n) :=
    List.mem_map_of_mem (List.mem_of_getElem? ha)
  have lookup : ∀ p ∈ d.productions.map (·.fill n),
      (⟨d.toVocabulary, d.productions.map (·.fill n), n⟩ : Grammar V).production? p.id = some p := by
    refine fun p hp => Grammar.lookup_of_ids ?_ hp
    intro i p hp
    simp only [List.getElem?_map, Option.map_eq_some_iff] at hp
    obtain ⟨q, hq, rfl⟩ := hp
    simpa using hd.ids i q hq
  refine { lookup, accept := ?accept, start := ?start, heads := ?heads, bodies := ?bodies }
  case accept =>
    have ha := lookup _ hm
    rw [Production.fill_id, hi] at ha
    exact ⟨a.fill n, ha, by simp [hs], by simp [Production.fill, hi]⟩
  case start =>
    -- The augmenting production is the only one that the count admits.
    intro p hp hh
    have ⟨q, hq⟩ := List.length_eq_one_iff.mp hc
    have hp : p ∈ [q] := hq ▸ List.mem_filter.mpr ⟨hp, by simpa using hh⟩
    have ha : a.fill n ∈ [q] := hq ▸ List.mem_filter.mpr ⟨hm, by simp [hs]⟩
    rw [List.mem_singleton] at hp ha
    rw [hp, ← ha, Production.fill_id, hi]
  case heads =>
    intro q hq
    obtain ⟨p, hp, rfl⟩ := List.mem_map.mp hq
    rw [Production.fill_head]
    exact hd.heads p hp
  case bodies =>
    intro q hq s hb
    obtain ⟨p, hp, rfl⟩ := List.mem_map.mp hq
    simp only [Production.fill] at hb
    split at hb
    case isTrue =>
      rw [List.mem_singleton] at hb
      exact hb ▸ hd.startSymbol hn
    case isFalse => exact hd.bodies p hp s hb

end Draft

theorem Grammar.augmented_of_define {g : Grammar V} {xs : List (Declaration V)}
    (h : define xs = .ok g) : g.Augmented := by
  simp only [define, bind_eq_ok] at h
  have ⟨d, hd, h⟩ := h
  exact (Draft.Consistent.empty.declareAll hd).augmented h

namespace Draft

-- The declarations that are not refused.
def accepted (d : Draft V) : List (Declaration V) → List (Declaration V)
  | [] => []
  | x :: xs =>
    match d.declare x with
    | .ok (_, d) => x :: d.accepted xs
    | .error _ => d.accepted xs

-- A draft that carries on after refused declarations is the draft of the other declarations.
theorem declareAll_accepted (d : Draft V) (xs : List (Declaration V)) :
    (d.accepted xs).foldlM (fun d x => Prod.snd <$> d.declare x) d = .ok (xs.foldl attempt d) := by
  induction xs generalizing d
  case nil => rfl
  case cons x xs hi =>
    simp only [List.foldl_cons, accepted, attempt]
    cases hx : d.declare x
    case error => exact hi d
    case ok r =>
      rw [List.foldlM_cons, bind_eq_ok]
      exact ⟨r.snd, map_eq_ok.mpr ⟨r, hx, rfl⟩, hi r.snd⟩

end Draft
end CanonicalLR
