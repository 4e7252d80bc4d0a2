import KernelMemory.Concurrency.Interleaving
import KernelMemory.Concurrency.Interrupts
import KernelMemory.Concurrency.SpinLock

/-!
# Contexts that compete for a lock

Each context makes its visits to a lock one after another, in steps that happen as one: an
exchange, a look at the flag, a count, a read or a write of the value, the release. What a
context does under the lock is a section of reads and writes, which may depend on what was
read, so that updates could be lost if two contexts were ever inside together. A section that
breaks off is one that leaves early.

The interrupts are those of the processor that a context runs on.
-/

namespace KernelMemory

namespace SpinLock

variable {α : Type}

/-- What a context does with the guard. -/
inductive Section (α : Type)
  /-- Drop the guard. -/
  | leave
  /-- Read the value; what was read decides how it goes on. -/
  | read (next : α → Section α)
  | write (value : α) (rest : Section α)

namespace Section

/-- A read, and a write of the changed value. -/
def ofFunction (work : α → α) : Section α :=
  read fun value => write (work value) leave

/-- What a section makes of a value that nobody else touches. -/
def apply : Section α → α → α
  | leave, value => value
  | read next, value => (next value).apply value
  | write value rest, _ => rest.apply value

end Section

/-- How a context asks for the lock. -/
inductive Request
  | lock
  /-- With interrupts masked until the lock is released. -/
  | lockIrq
  | tryLock
  /-- For one attempt and this many more. -/
  | tryLockFor (spins : Nat)
  deriving DecidableEq

/-- A request for the lock, and what to do under it. -/
structure Visit (α : Type) where
  request : Request
  work : Section α

/-- The next step of a context. -/
inductive Phase (α : Type)
  /-- Begin the next visit, if there is one. -/
  | idle
  /-- Mask interrupts before asking for the lock. -/
  | masking (work : Section α)
  /-- Exchange, with a number of attempts left after this one. -/
  | attempting (work : Section α) (more : Nat)
  /-- Give the visit up after the last attempt. -/
  | declining (work : Section α)
  /-- Exchange for the first time, prepared to wait. -/
  | arriving (work : Section α)
  /-- Count that the lock was taken. -/
  | counting (work : Section α)
  /-- Look at the flag until it is clear. -/
  | watching (work : Section α)
  /-- Exchange after the flag was seen clear. -/
  | retrying (work : Section α)
  /-- Make the guard after an exchange that succeeded. -/
  | entering (work : Section α)
  /-- Do what is left of the section, with the guard. -/
  | inside (rest : Section α)
  /-- Restore the interrupts that were masked. -/
  | restoring

namespace Phase

def ofVisit (v : Visit α) : Phase α :=
  match v.request with
  | .lock => arriving v.work
  | .lockIrq => masking v.work
  | .tryLock => attempting v.work 0
  | .tryLockFor spins => attempting v.work spins

def hasGuard : Phase α → Bool
  | inside _ => true
  | _ => false

/-- Whether a context in this phase has set the flag and not cleared it yet. -/
def hasLock : Phase α → Bool
  | entering _ | inside _ => true
  | _ => false

end Phase

/-- A context: its next step, the visits that it has yet to make, and its interrupts. -/
structure Context (α : Type) where
  phase : Phase α
  visits : List (Visit α)
  interrupts : Interrupts
  /-- Whether interrupts were enabled when this context masked them, while it does. -/
  masked : Option Bool

/-- A lock, and what has become of the visits to it. -/
structure Visited (α : Type) where
  lock : SpinLock α
  /-- The sections whose guards were made, first to last. -/
  entered : List (Section α)
  /-- The sections of the visits that were given up. -/
  declined : List (Section α)

namespace Context

def ofVisits (interrupts : Interrupts) (visits : List (Visit α)) : Context α :=
  ⟨.idle, visits, interrupts, none⟩

/-- Exchanges the flag, and goes on where that leads. -/
def exchange (c : Context α) (s : Visited α) (won lost : Phase α) : Context α × Visited α :=
  let (success, lock) := s.lock.exchange
  ({ c with phase := if success then won else lost }, { s with lock })

/-- The context and the lock after one step. -/
def step (c : Context α) (s : Visited α) : Context α × Visited α :=
  match c.phase with
  | .idle =>
    match c.visits with
    | [] => (c, s)
    | v :: visits => ({ c with phase := .ofVisit v, visits }, s)
  | .masking work =>
    let (wereEnabled, interrupts) := c.interrupts.mask
    ({ c with phase := .arriving work, interrupts, masked := some wereEnabled }, s)
  | .attempting work 0 => c.exchange s (.entering work) (.declining work)
  | .attempting work (more + 1) => c.exchange s (.entering work) (.attempting work more)
  | .declining work => ({ c with phase := .idle }, { s with declined := s.declined ++ [work] })
  | .arriving work => c.exchange s (.entering work) (.counting work)
  | .counting work =>
    ({ c with phase := .watching work }, { s with lock := s.lock.countContention })
  | .watching work =>
    ({ c with phase := if s.lock.locked then .watching work else .retrying work }, s)
  | .retrying work => c.exchange s (.entering work) (.watching work)
  | .entering work => ({ c with phase := .inside work }, { s with entered := s.entered ++ [work] })
  | .inside (.read next) => ({ c with phase := .inside (next s.lock.value) }, s)
  | .inside (.write value rest) =>
    ({ c with phase := .inside rest }, { s with lock := s.lock.put value })
  | .inside .leave =>
    ({ c with phase := if c.masked.isSome then .restoring else .idle },
      { s with lock := s.lock.release })
  | .restoring =>
    ({ c with
        phase := .idle
        interrupts := c.masked.elim c.interrupts c.interrupts.restore
        masked := none }, s)

end Context

/-- Contexts that visit the same lock. -/
abbrev Contention (α : Type) : Type :=
  Interleaving (Visited α) (Context α)

namespace Contention

/-- Every context comes with the interrupts of its processor and with its visits. -/
def start (lock : SpinLock α) (visits : List (Interrupts × List (Visit α))) : Contention α :=
  ⟨⟨lock, [], []⟩, visits.map fun own => Context.ofVisits own.1 own.2⟩

def run (s : Contention α) (schedule : List Nat) : Contention α :=
  Interleaving.run Context.step s schedule

end Contention

/-- A schedule in which the first context takes the lock and keeps it until each of the
`threads` others has found it taken; then the others go through one by one. -/
def holdUntilContended (threads : Nat) : List Nat :=
  let others := (List.range threads).map (· + 1)
  List.replicate 3 0 ++ others.flatMap (List.replicate 3 ·) ++ List.replicate 3 0
    ++ others.flatMap (List.replicate 6 ·)

/-- The lock after `threads` contexts had to wait for it and then made their change. -/
def contend (threads : Nat) (work : α → α) (l : SpinLock α) : SpinLock α :=
  let visit (work : α → α) := (Interrupts.hosted, [(⟨.lock, .ofFunction work⟩ : Visit α)])
  let others := List.replicate threads (visit work)
  ((Contention.start l (visit id :: others)).run (holdUntilContended threads)).shared.lock

end SpinLock

end KernelMemory
