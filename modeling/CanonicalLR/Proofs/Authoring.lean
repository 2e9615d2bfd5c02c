import CanonicalLR.Grammar.Session
import CanonicalLR.Proofs.WellFormed

namespace CanonicalLR

variable {V α β κ : Type}

namespace Attributes

variable {a b : Attributes V} {n i : Nat}

theorem rule?_fit (h : a.fit n = .ok b) (hi : i ≤ n) : b.rule? i = a.rule? i := by
  unfold fit at h
  split at h
  case isTrue => contradiction
  case isFalse =>
    split at h <;> cases h
    simp only [rule?, List.rightpad]
    by_cases hl : i < a.slots.length
    case pos =>
      rw [List.getElem?_append_left (by rw [List.length_take]; omega), List.getElem?_take_of_lt (by omega)]
    case neg =>
      rw [List.getElem?_append_right (by rw [List.length_take]; omega), List.getElem?_replicate,
        List.getElem?_eq_none (by omega)]
      split <;> rfl

theorem exists_fit_iff : (∃ b, a.fit n = .ok b) ↔
    a.inheritedOnHead = false ∧ ∀ i ∈ a.inheritedPositions, i ≤ n := by
  unfold fit
  split
  case isTrue h => simp [h]
  case isFalse h =>
    split
    case h_1 i hi =>
      have hlt : n < i := by simpa using List.find?_some hi
      have hmem := List.mem_of_find?_eq_some hi
      simp only [reduceCtorEq, exists_false, false_iff]
      exact fun hle => Nat.not_le.mpr hlt (hle.right i hmem)
    case h_2 hn => simpa [h] using hn

-- No rule is lost, since none is beyond the body.
theorem mem_inheritedPositions_fit (h : a.fit n = .ok b) :
    i ∈ b.inheritedPositions ↔ i ∈ a.inheritedPositions := by
  have hn := (exists_fit_iff.mp ⟨b, h⟩).right
  have hlength := length_fit h
  rw [mem_inheritedPositions, mem_inheritedPositions]
  by_cases hi : i ≤ n
  case pos => rw [rule?_fit h hi]
  case neg =>
    constructor
    · intro ⟨_, hb⟩
      have := lt_length_of_isSome hb
      omega
    · intro ha
      exact absurd (hn i (mem_inheritedPositions.mpr ha)) hi

end Attributes

-- Only nonterminals inherit.
theorem Draft.exists_fitAttributes_iff {a : Attributes V} {body : List Symbol} :
    (∃ b, fitAttributes body a = .ok b) ↔ a.inheritedOnHead = false ∧
      (∀ i ∈ a.inheritedPositions, i ≤ body.length) ∧
      ∀ i ∈ a.inheritedPositions, ∀ t : Terminal, body[i - 1]? ≠ some (.terminal t) := by
  rw [← and_assoc, ← Attributes.exists_fit_iff]
  simp only [fitAttributes]
  split
  case h_1 h => simp [h]
  case h_2 h => simp [h]
  case h_3 b h =>
    have hfit : ∃ b, a.fit body.length = .ok b := ⟨b, h⟩
    rw [and_iff_right hfit]
    split
    case h_1 i hi =>
      have hm := (Attributes.mem_inheritedPositions_fit h).mp (List.mem_of_find?_eq_some hi)
      have ht := List.find?_some hi
      simp only [reduceCtorEq, exists_false, false_iff]
      intro hall
      rcases hs : body[i - 1]? with _ | (t | _)
      · simp [hs] at ht
      · exact hall i hm t hs
      · simp [hs] at ht
    case h_2 hi =>
      refine iff_of_true ⟨b, rfl⟩ fun i hm t hs => ?_
      have := List.find?_eq_none.mp hi i ((Attributes.mem_inheritedPositions_fit h).mpr hm)
      simp [hs] at this

namespace Session

variable {s s' : Session V} {x : Declaration V} {xs : List (Declaration V)} {r : Declared}
variable {c : Call V α} {f : Session V → Except GrammarError α} {g : α → Call V β} {name : String}
variable {head : Nonterminal} {body : List Symbol} {a : Attributes V} {y : Symbol}

theorem perform_bind (c : Call V α) (g : α → Call V β) (s : Session V) :
    (c >>= g).perform s =
      match c.perform s with
      | (.ok a, s') => (g a).perform s'
      | (.error e, s') => (.error e, s') := by
  change (match c.perform s with | (a, s') => ExceptT.bindCont g a s') = _
  rcases c.perform s with ⟨_ | _, _⟩ <;> rfl

theorem perform_map (h : α → β) (c : Call V α) (s : Session V) :
    (h <$> c).perform s = ((c.perform s).1.map h, (c.perform s).2) := by
  rw [← bind_pure_comp, perform_bind]
  rcases c.perform s with ⟨_ | _, _⟩ <;> rfl

theorem perform_consult (f : Session V → Except GrammarError α) (g : α → Call V β) (s : Session V) :
    (consult f >>= g).perform s =
      match f s with
      | .ok a => (g a).perform s
      | .error e => (.error e, s) := by
  rw [perform_bind]
  change (match (f s, s) with | (.ok a, s') => (g a).perform s' | (.error e, s') => (.error e, s')) = _
  cases f s <;> rfl

theorem perform_map_eq_ok {h : α → β} {b : β} : (h <$> c).perform s = (.ok b, s') ↔
    ∃ a, c.perform s = (.ok a, s') ∧ h a = b := by
  rw [perform_map]
  rcases c.perform s with ⟨_ | _, _⟩ <;> grind [Except.map]

theorem perform_consult_eq_ok {b : β} : (consult f >>= g).perform s = (.ok b, s') ↔
    ∃ a, f s = .ok a ∧ (g a).perform s = (.ok b, s') := by
  rw [perform_consult]
  cases f s <;> simp

-- A call that leaves the session as it was if it is refused.
def Call.Atomic (c : Call V α) : Prop := ∀ s e s', c.perform s = (.error e, s') → s' = s

namespace Call.Atomic

theorem of_ok (h : ∀ s, ∃ a s', c.perform s = (.ok a, s')) : c.Atomic := by
  intro s e s' he
  obtain ⟨a, t, ht⟩ := h s
  cases ht.symm.trans he

theorem consult (h : ∀ a, (g a).Atomic) : (consult f >>= g).Atomic := by
  intro s e s' he
  rw [perform_consult] at he
  split at he
  case h_1 a _ => exact h a s e s' he
  case h_2 => cases he; rfl

theorem map (h : α → β) (hc : c.Atomic) : Call.Atomic (h <$> c) := by
  intro s e s' he
  rw [perform_map] at he
  rcases hs : c.perform s with ⟨_ | _, t⟩
  all_goals
    rw [hs] at he
    cases he
  exact hc s _ _ hs

end Call.Atomic

-- All that can be refused comes before all that changes.
theorem atomic_declare (x : Declaration V) : (declare x).Atomic := by
  cases x
  case terminal => exact .map _ (.consult fun _ => .of_ok fun _ => ⟨_, _, rfl⟩)
  case nonterminal => exact .map _ (.consult fun _ => .of_ok fun _ => ⟨_, _, rfl⟩)
  case production =>
    refine .map _ (.consult fun _ => .consult fun _ => .consult fun _ => .consult fun _ => ?_)
    exact .of_ok fun _ => ⟨_, _, rfl⟩
  case start => exact .map _ (.consult fun _ => .of_ok fun _ => ⟨_, _, rfl⟩)

-- What a session keeps of a call that is not refused.

def withTerminal (s : Session V) (name : String) : Session V :=
  { s with
    terminals := s.terminals.file ⟨s.nextTerminal.toNat⟩ ⟨⟨s.nextTerminal.toNat⟩, name⟩
    nextTerminal := s.nextTerminal + 1 }

def withNonterminal (s : Session V) (name : String) : Session V :=
  { s with
    nonterminals := s.nonterminals.file ⟨s.nextNonterminal.toNat⟩ ⟨⟨s.nextNonterminal.toNat⟩, name⟩
    nextNonterminal := s.nextNonterminal + 1 }

def withProduction (s : Session V) (head : Nonterminal) (body : List Symbol) (a : Attributes V) :
    Session V :=
  { s with
    productions := s.productions.file ⟨s.nextProduction.toNat⟩ ⟨⟨s.nextProduction.toNat⟩, head, body, a⟩
    nextProduction := s.nextProduction + 1 }

inductive Takes (s : Session V) : Declaration V → Declared → Session V → Prop
  | terminal {name : String} (checked : s.checkName name = .ok ()) :
    Takes s (.terminal name) (.terminal ⟨s.nextTerminal.toNat⟩) (s.withTerminal name)
  | nonterminal {name : String} (checked : s.checkName name = .ok ()) :
    Takes s (.nonterminal name) (.nonterminal ⟨s.nextNonterminal.toNat⟩) (s.withNonterminal name)
  | production {head : Nonterminal} {body : List Symbol} {a fitted : Attributes V}
    (declared : s.checkHead head = .ok ()) (usable : s.checkBody body = .ok ())
    (new : s.checkNew head body = .ok ()) (fits : Draft.fitAttributes body a = .ok fitted) :
    Takes s (.production head body a) (.production ⟨s.nextProduction.toNat⟩)
      (s.withProduction head body fitted)
  | start {symbol : Nonterminal} (usable : s.checkStart symbol = .ok ()) :
    Takes s (.start symbol) .start { s with start := some symbol }

theorem perform_declare_eq_ok : (declare x).perform s = (.ok r, s') ↔ s.Takes x r s' := by
  constructor
  case mp =>
    intro h
    cases x
    all_goals
      obtain ⟨_, hd, rfl⟩ := perform_map_eq_ok.mp h
      obtain ⟨_, hc, hd⟩ := perform_consult_eq_ok.mp hd
    case terminal => cases hd; exact .terminal hc
    case nonterminal => cases hd; exact .nonterminal hc
    case production =>
      obtain ⟨_, hb, hd⟩ := perform_consult_eq_ok.mp hd
      obtain ⟨_, hn, hd⟩ := perform_consult_eq_ok.mp hd
      obtain ⟨_, hf, hd⟩ := perform_consult_eq_ok.mp hd
      cases hd
      exact .production hc hb hn hf
    case start => cases hd; exact .start hc
  case mpr =>
    intro h
    cases h
    case terminal hc => exact perform_map_eq_ok.mpr ⟨_, perform_consult_eq_ok.mpr ⟨_, hc, rfl⟩, rfl⟩
    case nonterminal hc => exact perform_map_eq_ok.mpr ⟨_, perform_consult_eq_ok.mpr ⟨_, hc, rfl⟩, rfl⟩
    case production hh hb hn hf =>
      refine perform_map_eq_ok.mpr ⟨_, perform_consult_eq_ok.mpr ⟨_, hh, ?_⟩, rfl⟩
      refine perform_consult_eq_ok.mpr ⟨_, hb, perform_consult_eq_ok.mpr ⟨_, hn, ?_⟩⟩
      exact perform_consult_eq_ok.mpr ⟨_, hf, rfl⟩
    case start hc => exact perform_map_eq_ok.mpr ⟨_, perform_consult_eq_ok.mpr ⟨_, hc, rfl⟩, rfl⟩

-- What a session demands of a production.
structure Permits (s : Session V) (head : Nonterminal) (body : List Symbol) (a : Attributes V) : Prop where
  declared : s.Declares head
  usable : ∀ y ∈ body, s.Declares y ∧ y ≠ .nonterminal .start
  new : ∀ p ∈ s.productions.values, ¬ (p.head = head ∧ p.body = body)
  onHead : a.inheritedOnHead = false
  within : ∀ i ∈ a.inheritedPositions, i ≤ body.length
  onTerminal : ∀ i ∈ a.inheritedPositions, ∀ t : Terminal, body[i - 1]? ≠ some (.terminal t)

theorem checkHead_eq_ok {u : Unit} : s.checkHead head = .ok u ↔ s.Declares head := by
  simp [checkHead]

theorem checkBody_eq_ok {u : Unit} :
    s.checkBody body = .ok u ↔ ∀ y ∈ body, s.Declares y ∧ y ≠ .nonterminal .start := by
  simp only [checkBody]
  split
  case h_1 y hy =>
    have hn : ¬ s.Usable y := by simpa using List.find?_some hy
    simp only [reduceCtorEq, false_iff]
    exact fun h => hn (h y (List.mem_of_find?_eq_some hy))
  case h_2 h => simpa [Usable] using h

theorem checkNew_eq_ok {u : Unit} : s.checkNew head body = .ok u ↔
    ∀ p ∈ s.productions.values, ¬ (p.head = head ∧ p.body = body) := by
  simp [checkNew]

theorem exists_perform_production_iff :
    (∃ r s', (declare (.production head body a)).perform s = (.ok r, s')) ↔ s.Permits head body a := by
  simp only [perform_declare_eq_ok]
  constructor
  case mp =>
    intro ⟨_, _, h⟩
    cases h
    case production fitted hh hb hn hf =>
      have ⟨honhead, hwithin, honterminal⟩ := Draft.exists_fitAttributes_iff.mp ⟨fitted, hf⟩
      exact ⟨checkHead_eq_ok.mp hh, checkBody_eq_ok.mp hb, checkNew_eq_ok.mp hn, honhead, hwithin, honterminal⟩
  case mpr =>
    intro h
    have ⟨fitted, hf⟩ := Draft.exists_fitAttributes_iff.mpr ⟨h.onHead, h.within, h.onTerminal⟩
    exact ⟨_, _, .production (checkHead_eq_ok.mpr h.declared) (checkBody_eq_ok.mpr h.usable)
      (checkNew_eq_ok.mpr h.new) hf⟩

end Session

-- The symbol that is introduced, if any.
def Declared.symbol? : Declared → Option Symbol
  | terminal t => some t
  | nonterminal n => some n
  | _ => none

namespace Session

variable {s s' : Session V} {x : Declaration V} {xs : List (Declaration V)} {r : Declared} {y : Symbol}
variable {answers : List (Except GrammarError Declared)}

theorem Takes.declares_iff (h : s.Takes x r s') : s'.Declares y ↔ s.Declares y ∨ r.symbol? = some y := by
  cases h
  all_goals cases y
  all_goals simp [Declares, Declared.symbol?, withTerminal, withNonterminal, withProduction,
    Registry.mem_keys_file, eq_comm]

theorem declareAll_cons (x : Declaration V) (xs : List (Declaration V)) (s : Session V) :
    (declareAll (x :: xs)).run s =
      (((declare x).perform s).1 :: ((declareAll xs).run ((declare x).perform s).2).1,
        ((declareAll xs).run ((declare x).perform s).2).2) :=
  rfl

-- Either way, the next call finds a session that this one has left behind.
theorem perform_cases (x : Declaration V) (s : Session V) :
    (∃ e, (declare x).perform s = (.error e, s)) ∨
      ∃ r s', (declare x).perform s = (.ok r, s') ∧ s.Takes x r s' := by
  rcases h : (declare x).perform s with ⟨e | r, s'⟩
  · exact .inl ⟨e, by rw [atomic_declare x s e s' h]⟩
  · exact .inr ⟨r, s', rfl, perform_declare_eq_ok.mp h⟩

-- A refused call is as good as none.
theorem declareAll_cases (h : (declareAll (x :: xs)).run s = (answers, s')) :
    (∃ e rest, answers = .error e :: rest ∧ (declareAll xs).run s = (rest, s')) ∨
      ∃ r t rest, answers = .ok r :: rest ∧ (declare x).perform s = (.ok r, t) ∧ s.Takes x r t ∧
        (declareAll xs).run t = (rest, s') := by
  rw [declareAll_cons] at h
  obtain ⟨e, he⟩ | ⟨r, t, hr, ht⟩ := perform_cases x s
  · rw [he] at h
    cases h
    exact .inl ⟨e, _, rfl, rfl⟩
  · rw [hr] at h
    cases h
    exact .inr ⟨r, t, _, rfl, hr, ht, rfl⟩

theorem declares_declareAll (h : (declareAll xs).run s = (answers, s')) :
    s'.Declares y ↔ s.Declares y ∨ ∃ r, .ok r ∈ answers ∧ r.symbol? = some y := by
  induction xs generalizing s answers
  case nil =>
    cases h
    simp
  case cons x xs hi =>
    obtain ⟨e, rest, rfl, hxs⟩ | ⟨r, t, rest, rfl, _, ht, hxs⟩ := declareAll_cases h
    · rw [hi hxs]
      simp
    · rw [hi hxs, ht.declares_iff]
      simp [or_assoc]

-- The calls that have not been refused.
def kept (xs : List (Declaration V)) (answers : List (Except GrammarError Declared)) : List (Declaration V) :=
  ((xs.zip answers).filter (·.2.isOk)).map Prod.fst

theorem declareAll_kept (h : (declareAll xs).run s = (answers, s')) :
    (declareAll (kept xs answers)).run s = (answers.filter Except.isOk, s') := by
  induction xs generalizing s answers
  case nil =>
    cases h
    rfl
  case cons x xs hi =>
    obtain ⟨e, rest, rfl, hxs⟩ | ⟨r, t, rest, rfl, hr, _, hxs⟩ := declareAll_cases h
    · exact hi hxs
    · have hk : kept (x :: xs) (.ok r :: rest) = x :: kept xs rest := rfl
      rw [hk, declareAll_cons, hr, hi hxs]
      rfl

-- The session after some calls.
def after (xs : List (Declaration V)) : Session V := ((declareAll xs).run initial).2

theorem declares_initial : (initial : Session V).Declares y ↔ y = .terminal .eof ∨ y = .nonterminal .start := by
  cases y <;> simp [Declares, initial, Registry.keys]

theorem refusals_leave_no_trace (xs : List (Declaration V)) :
    (∀ x e s', (declare x).perform (after xs) = (.error e, s') → s' = after xs) ∧
    after (kept xs (author xs).1) = after xs ∧
    author (kept xs (author xs).1) = ((author xs).1.filter Except.isOk, (author xs).2) ∧
    (∀ head body a, (∃ r s', (declare (.production head body a)).perform (after xs) = (.ok r, s')) ↔
      (after xs).Permits head body a) ∧
    ∀ y, (after xs).Declares y ↔
      y = .terminal .eof ∨ y = .nonterminal .start ∨ ∃ r, .ok r ∈ (author xs).1 ∧ r.symbol? = some y := by
  rcases h : (declareAll xs).run initial with ⟨answers, s⟩
  have hafter : after xs = s := congrArg Prod.snd h
  have hauthor : author xs = (answers, s.finish) := by rw [author, h]
  have hkept := declareAll_kept h
  rw [hauthor, hafter]
  refine ⟨fun x => atomic_declare x s, ?kept, ?author, fun _ _ _ => exists_perform_production_iff, ?declared⟩
  case kept => rw [after, hkept]
  case author => rw [author, hkept]
  case declared =>
    intro y
    rw [declares_declareAll h, declares_initial, or_assoc]

end Session

namespace Example.Interrupted

def a : Terminal := ⟨1⟩
def s : Nonterminal := ⟨1⟩

-- A rule that a terminal would inherit by, which is the last thing to be refused for.
def misplaced : Attributes Ast := Attributes.none.withInherited 1 (Template.leaf "?").rule

def declarations : List (Declaration Ast) := [
  .terminal "A", .nonterminal "S", .nonterminal "A",
  .production s [a] misplaced, .production s [a] .none,
  .production s [a] .none, .production s [a, s] .none]

def others : List (Declaration Ast) := [
  .terminal "A", .nonterminal "S", .production s [a] .none, .production s [a, s] .none]

def answers : List (Except GrammarError Declared) := [
  .ok (.terminal a), .ok (.nonterminal s), .ok (.production ⟨1⟩), .ok (.production ⟨2⟩)]

end Example.Interrupted

open Example.Interrupted in
theorem Session.refusals_leave_no_trace_interrupted :
    kept declarations (author declarations).1 = others ∧ after others = after declarations ∧
      author others = (answers, (author declarations).2) ∧
      ((declare (.production s [a] .none)).perform (after declarations)).2 = after declarations ∧
      (after declarations).Permits s [s, a] .none ∧ (after declarations).Declares a := by
  have hkept : kept declarations (author declarations).1 = others := rfl
  have ⟨hrefused, hafter, hauthor, hpermits, hdeclared⟩ := refusals_leave_no_trace declarations
  rw [hkept] at hafter hauthor
  refine ⟨hkept, hafter, hauthor, ?_, ?_, ?_⟩
  · exact hrefused (.production s [a] .none) (.duplicateProduction "S") _ rfl
  · exact (hpermits s [s, a] .none).mp ⟨_, _, rfl⟩
  · exact (hdeclared a).mpr (.inr (.inr ⟨.terminal a, .head _, rfl⟩))

end CanonicalLR
