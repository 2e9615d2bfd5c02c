namespace CanonicalLR

-- The attribute values of one production, by position: 0 is the head, and `i` is the `i`-th symbol of the body.
-- Values that have not been computed, or that have been moved out, are `none`.
structure Args (V : Type) where
  inherited : List (Option V)
  synthesized : List (Option V)

namespace Args

variable {V : Type}

def blank (positions : Nat) : Args V where
  inherited := List.replicate positions none
  synthesized := List.replicate positions none

def length (a : Args V) : Nat := a.synthesized.length

def isEmpty (a : Args V) : Bool := a.synthesized.isEmpty

@[simp]
theorem length_blank (n : Nat) : (blank n : Args V).length = n := by
  simp [length, blank]

def inherited? (a : Args V) (i : Nat) : Option V := a.inherited[i]?.join

def synthesized? (a : Args V) (i : Nat) : Option V := a.synthesized[i]?.join

def setInherited (a : Args V) (i : Nat) (v : Option V) : Args V :=
  { a with inherited := a.inherited.set i v }

def setSynthesized (a : Args V) (i : Nat) (v : Option V) : Args V :=
  { a with synthesized := a.synthesized.set i v }

-- Positions outside of the arrays hold no value, so taking from them changes nothing.
def takeInherited (i : Nat) : StateM (Args V) (Option V) :=
  fun a => (a.inherited? i, a.setInherited i none)

def takeSynthesized (i : Nat) : StateM (Args V) (Option V) :=
  fun a => (a.synthesized? i, a.setSynthesized i none)

end Args

-- The rule of position 0 computes the synthesized value of the head, the rule of position `i > 0`
-- the inherited value of the `i`-th symbol of the body.
abbrev Rule (V : Type) := StateM (Args V) V

-- The rules of a production by position, as its author collects them: `slots` may be shorter than
-- the body until the rules are fitted to it.
structure Attributes (V : Type) where
  slots : List (Option (Rule V)) := [none]
  inheritedOnHead : Bool := false

namespace Attributes

variable {V : Type}

-- Without a rule for its head, a production synthesizes no value.
def none : Attributes V := {}

def withSynthesized (a : Attributes V) (r : Rule V) : Attributes V :=
  { a with slots := a.slots.set 0 (some r) }

def synthesized (r : Rule V) : Attributes V := none.withSynthesized r

-- The head inherits from its parent and has no inherited rule of its own. An author who attaches one
-- keeps the other rules, and learns about it when the production is declared.
def withInherited (a : Attributes V) (position : Nat) (r : Rule V) : Attributes V :=
  if position = 0 then
    { a with inheritedOnHead := true }
  else
    { a with slots := (a.slots.rightpad (position + 1) Option.none).set position (some r) }

def rule? (a : Attributes V) (slot : Nat) : Option (Rule V) := a.slots[slot]?.join

def head? (a : Attributes V) : Option (Rule V) := a.rule? 0

-- The value of the head, once the arrays have been filled.
def value (a : Attributes V) (args : Args V) : Option V := a.head?.map fun r => (r args).1

def length (a : Attributes V) : Nat := a.slots.length

def isEmpty (a : Attributes V) : Bool := a.slots.all Option.isNone

-- Only the head may carry a rule.
def isSAttributed (a : Attributes V) : Bool := (a.slots.drop 1).all Option.isNone

def inheritedPositions (a : Attributes V) : List Nat :=
  (a.slots.zipIdx.drop 1).filterMap fun (slot, i) => slot.map fun _ => i

theorem mem_inheritedPositions {a : Attributes V} {i : Nat} :
    i ∈ a.inheritedPositions ↔ 0 < i ∧ (a.rule? i).isSome := by
  cases a with | mk slots _ =>
  cases slots
  case nil => simp [inheritedPositions, rule?]
  case cons s ss =>
    simp only [inheritedPositions, rule?, List.zipIdx_cons, List.drop_succ_cons, List.drop_zero,
      List.mem_filterMap, Prod.exists, List.mk_mem_zipIdx_iff_le_and_getElem?_sub]
    constructor
    case mp =>
      intro ⟨slot, j, ⟨hj, hs⟩, hi⟩
      cases slot <;> simp at hi
      subst hi
      cases j <;> simp_all
    case mpr =>
      intro ⟨hi, hs⟩
      cases i <;> simp at hi hs
      case succ j =>
        cases hj : ss[j]?.join <;> simp [hj] at hs
        case some r =>
          exact ⟨some r, j + 1, ⟨by omega, by simpa [Option.join_eq_some_iff] using hj⟩, rfl⟩

inductive Misfit where
  | inheritedOnHead
  | beyondBody (slot : Nat)

-- Bring the rules to the length of a body: one slot for the head and one for each symbol.
def fit (a : Attributes V) (bodyLength : Nat) : Except Misfit (Attributes V) :=
  if a.inheritedOnHead then
    .error .inheritedOnHead
  else
    match a.inheritedPositions.find? (bodyLength < ·) with
    | some slot => .error (.beyondBody slot)
    | Option.none =>
      let slots := a.slots.take (bodyLength + 1)
      .ok { a with slots := slots.rightpad (bodyLength + 1) Option.none }

theorem length_fit {a b : Attributes V} {n : Nat} (h : a.fit n = .ok b) : b.length = n + 1 := by
  unfold fit at h
  split at h
  · contradiction
  · split at h
    · contradiction
    · cases h
      simp only [length, List.rightpad, List.length_append, List.length_take, List.length_replicate]
      omega

-- One entry per slot, which tells whether the slot carries a rule.
def text (a : Attributes V) : String :=
  "[" ++ ", ".intercalate (a.slots.map fun s => if s.isSome then "\"<rule>\"" else "\"-\"") ++ "]"

end Attributes

-- Compute the value that a symbol of the body inherits, unless there is no rule for it.
def Args.inherit {V : Type} (args : Args V) (a : Attributes V) (position : Nat) : Args V :=
  match a.rule? position with
  | some r =>
    let (value, args) := r args
    args.setInherited position (some value)
  | none => args

end CanonicalLR
