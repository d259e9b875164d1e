/-!
# Log entries

What compiling, loading and running report on the side, in the order in which it happens.
-/

namespace Colloquy

/-- How detailed an entry is; `warn` entries are the most important. -/
inductive Level where
  | warn | debug | trace
deriving DecidableEq, Inhabited

namespace Level

def name : Level → String
  | warn => "WARN" | debug => "DEBUG" | trace => "TRACE"

/-- Rank by detail. -/
def rank : Level → Nat
  | warn => 0 | debug => 1 | trace => 2

end Level

/-- One reported line. -/
structure LogEntry where
  level : Level
  message : String
deriving DecidableEq, Inhabited

/-- `LEVEL message`. -/
def LogEntry.text (e : LogEntry) : String := e.level.name ++ " " ++ e.message

/-- Entries in the order in which they were reported. -/
abbrev Log := Array LogEntry

/-- The entries that are at most as detailed as `level`. -/
def Log.upTo (log : Log) (level : Level) : Log := log.filter (·.level.rank ≤ level.rank)

end Colloquy
