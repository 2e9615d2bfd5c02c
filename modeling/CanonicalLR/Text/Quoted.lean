import CanonicalLR.Text.DefaultIgnorable
import CanonicalLR.Text.GraphemeExtend
import CanonicalLR.Text.Unprintable

namespace CanonicalLR.Text

-- A mark that combines with the character in front of it cannot be seen as such. The halfwidth sound
-- marks of Katakana extend a grapheme too, but they take up a place of their own.
def isCombining (c : Char) : Bool := isGraphemeExtend c && c != '\uff9e' && c != '\uff9f'

def isVisible (c : Char) : Bool := isPrintable c && !isDefaultIgnorable c && !isCombining c

-- Quotes and backslashes are escaped, and so is what is not visible.
def escaped (c : Char) : List Char :=
  match c with
  | '"' => ['\\', '"']
  | '\\' => ['\\', '\\']
  | '\n' => ['\\', 'n']
  | '\r' => ['\\', 'r']
  | '\t' => ['\\', 't']
  | '\x00' => ['\\', '0']
  | c =>
    if isVisible c then [c] else ['\\', 'u', '\x7b'] ++ Nat.toDigits 16 c.toNat ++ ['\x7d']

def quoted (s : String) : String := .ofList ('"' :: s.toList.flatMap escaped ++ ['"'])

end CanonicalLR.Text
