namespace CanonicalLR

inductive Level where
  | warn
  | debug
  | trace
  deriving DecidableEq

namespace Level

def name : Level → String
  | warn => "WARN"
  | debug => "DEBUG"
  | trace => "TRACE"

def verbosity : Level → Nat
  | warn => 0
  | debug => 1
  | trace => 2

-- A listener at level `l` hears the events that are at least as severe as `l`.
def admits (l other : Level) : Bool := other.verbosity ≤ l.verbosity

end Level

structure Event where
  level : Level
  message : String
  deriving DecidableEq

namespace Event

def line (e : Event) : String := e.level.name ++ " " ++ e.message

def heard (l : Level) (es : List Event) : List Event := es.filter (l.admits ·.level)

end Event
end CanonicalLR
