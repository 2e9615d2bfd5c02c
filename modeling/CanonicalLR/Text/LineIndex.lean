import CanonicalLR.Parser.Token

namespace CanonicalLR

namespace Text

-- The number of bytes in UTF-8.
def utf8Length : List Char → Nat
  | [] => 0
  | c :: cs => c.utf8Size + utf8Length cs

@[simp]
theorem utf8Length_append {cs ds : List Char} : utf8Length (cs ++ ds) = utf8Length cs + utf8Length ds := by
  induction cs <;> simp_all [utf8Length, Nat.add_assoc]

-- The parts of a text before and behind an offset.
def splitAt? : Nat → List Char → Option (List Char × List Char)
  | 0, cs => some ([], cs)
  | _ + 1, [] => none
  | n + 1, c :: cs =>
    if c.utf8Size ≤ n + 1 then
      (splitAt? (n + 1 - c.utf8Size) cs).map fun (before, after) => (c :: before, after)
    else
      none

-- The part of a text between two offsets.
def slice? (start stop : Nat) (cs : List Char) : Option (List Char) :=
  if start ≤ stop then
    (splitAt? start cs).bind fun parts => (splitAt? (stop - start) parts.2).map Prod.fst
  else
    none

-- Of `size` indices from `low` on, those at which `p` holds are assumed to come first. The index behind them.
def bisect (p : Nat → Bool) (low size : Nat) : Nat :=
  if size = 0 then
    low
  else if p (low + size / 2) then
    bisect p (low + size / 2 + 1) (size - size / 2 - 1)
  else
    bisect p low (size / 2)
termination_by size

-- The number of elements in front of which `p` holds. There must be none behind them.
def partitionPoint {α : Type} (p : α → Bool) (l : List α) : Nat := bisect (fun i => l[i]?.any p) 0 l.length

-- The offsets of newlines in a text that starts at an offset.
def newlines : Nat → List Char → List Nat
  | _, [] => []
  | offset, c :: cs =>
    if c = '\n' then offset :: newlines (offset + c.utf8Size) cs else newlines (offset + c.utf8Size) cs

end Text

open Text

-- The offsets at which the lines of a text start, in order.
structure LineIndex where
  starts : List Nat

namespace LineIndex

def ofText (cs : List Char) : LineIndex := ⟨0 :: (newlines 0 cs).map (· + 1)⟩

-- There is no position if the line does not exist, or if the text cannot be cut where the line starts or at the
-- offset.
def position? (index : LineIndex) (cs : List Char) (offset : Nat) : Option Position :=
  match partitionPoint (· ≤ offset) index.starts with
  | 0 => none
  | line + 1 =>
    match index.starts[line]? with
    | none => none
    | some start => (slice? start offset cs).map fun before => ⟨line + 1, before.length + 1⟩

end LineIndex
end CanonicalLR
