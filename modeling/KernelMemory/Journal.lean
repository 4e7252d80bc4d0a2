/-!
# Journal

Operations leave records of what they did. A record has a level; a reader that asks
for a level sees the records of that level and of every more severe one.
-/

namespace KernelMemory

/-- Severity of a record, most severe first. -/
inductive Level
  | error
  | warn
  | info
  | debug
  | trace
  deriving DecidableEq, Inhabited

namespace Level

def all : List Level :=
  [error, warn, info, debug, trace]

/-- Position in the order of falling severity. -/
def rank : Level → Nat
  | error => 0
  | warn => 1
  | info => 2
  | debug => 3
  | trace => 4

/-- Whether a reader at level `l` sees records of level `record`. -/
def admits (l record : Level) : Bool :=
  record.rank ≤ l.rank

def name : Level → String
  | error => "ERROR"
  | warn => "WARN"
  | info => "INFO"
  | debug => "DEBUG"
  | trace => "TRACE"

end Level

structure Record where
  level : Level
  text : String
  deriving DecidableEq, Inhabited

namespace Record

def line (r : Record) : String :=
  r.level.name ++ " " ++ r.text

end Record

end KernelMemory
