import KernelMemory.Concurrency.Interleaving
import KernelMemory.Concurrency.WriteOnce

/-!
# Contexts that compete for a cell

Each context makes its calls on a write-once cell one after another, in steps that happen as
one: a look at the state, a claim, the initializer, the write, the publication, a read. An
initializer comes to an end, and its value is all that it contributes. A context that waits
looks at the state as often as it is scheduled.
-/

namespace KernelMemory

namespace WriteOnce

variable {α : Type}

inductive Call (α : Type)
  | get
  | set (value : α)
  /-- The initializer answers `value`. -/
  | getOrInit (value : α)
  deriving DecidableEq

/-- What a call came to. -/
inductive Outcome (α : Type)
  /-- The cell was not ready. -/
  | absent
  | stored
  | rejected (value : α)
  /-- What was in the cell when it was read. -/
  | found (content : Option α)
  deriving DecidableEq

/-- The next step within a call. -/
inductive Phase (α : Type)
  /-- Look at the state, for a call that only reads. -/
  | peeking
  /-- Claim the cell for a value at hand. -/
  | offering (value : α)
  /-- Look at the state, for a call that can initialize. -/
  | looking (value : α)
  /-- Claim the cell before running the initializer. -/
  | claiming (value : α)
  /-- Run the initializer. -/
  | initializing (value : α)
  /-- Write the value; afterwards the call reads it or is done. -/
  | writing (value : α) (reads : Bool)
  /-- Publish the value. -/
  | publishing (reads : Bool)
  /-- Look at the state until the cell is ready. -/
  | waiting
  /-- Read the value. -/
  | reading
  deriving DecidableEq

/-- Where a step within a call leads. -/
inductive Progress (α : Type)
  | next (phase : Phase α)
  | done (outcome : Outcome α)
  deriving DecidableEq

namespace Phase

def ofCall : Call α → Phase α
  | .get => peeking
  | .set value => offering value
  | .getOrInit value => looking value

def step (c : WriteOnce α) : Phase α → Progress α × WriteOnce α
  | peeking => (if c.isReady then .next reading else .done .absent, c)
  | offering value =>
    match c.claim with
    | (true, c) => (.next (writing value false), c)
    | (false, c) => (.done (.rejected value), c)
  | looking value => (.next (if c.isReady then reading else claiming value), c)
  | claiming value =>
    match c.claim with
    | (true, c) => (.next (initializing value), c)
    | (false, c) => (.next waiting, c)
  | initializing value => (.next (writing value true), c)
  | writing value reads => (.next (publishing reads), c.write value)
  | publishing reads => (if reads then .next reading else .done .stored, c.publish)
  | waiting => (.next (if c.isReady then reading else waiting), c)
  | reading => (.done (.found c.content), c)

def runsInit : Phase α → Bool
  | initializing _ => true
  | _ => false

def writes : Phase α → Bool
  | writing .. => true
  | _ => false

end Phase

/-- A context: the call that it is in, those that it has yet to make, and those that it has
made with their outcomes. -/
structure Context (α : Type) where
  active : Option (Call α × Phase α)
  calls : List (Call α)
  answers : List (Call α × Outcome α)
  deriving DecidableEq

/-- A cell, and how often it was initialized and written. -/
structure Record (α : Type) where
  cell : WriteOnce α
  inits : Nat
  writes : Nat
  deriving DecidableEq

namespace Context

def ofCalls (calls : List (Call α)) : Context α :=
  ⟨none, calls, []⟩

/-- Takes note of where a step within a call has led. -/
def proceed (x : Context α) (call : Call α) : Progress α → Context α
  | .next phase => { x with active := some (call, phase) }
  | .done outcome => { x with active := none, answers := x.answers ++ [(call, outcome)] }

/-- The context and the record after one step. -/
def step (x : Context α) (r : Record α) : Context α × Record α :=
  match x.active, x.calls with
  | none, [] => (x, r)
  | none, call :: calls => ({ x with active := some (call, .ofCall call), calls }, r)
  | some (call, phase), _ =>
    let (progress, cell) := phase.step r.cell
    (x.proceed call progress,
      ⟨cell, r.inits + phase.runsInit.toNat, r.writes + phase.writes.toNat⟩)

end Context

/-- Contexts that call the same cell. -/
abbrev Race (α : Type) : Type :=
  Interleaving (Record α) (Context α)

namespace Race

def start (cell : WriteOnce α) (calls : List (List (Call α))) : Race α :=
  ⟨⟨cell, 0, 0⟩, calls.map Context.ofCalls⟩

def run (r : Race α) (schedule : List Nat) : Race α :=
  Interleaving.run Context.step r schedule

def cell (r : Race α) : WriteOnce α :=
  r.shared.cell

def inits (r : Race α) : Nat :=
  r.shared.inits

def writes (r : Race α) : Nat :=
  r.shared.writes

/-- The calls that have been made, with their outcomes. -/
def answers (r : Race α) : List (Call α × Outcome α) :=
  r.contexts.flatMap Context.answers

/-- What the calls that have been made have read. -/
def seen (r : Race α) : List α :=
  r.answers.filterMap fun answer =>
    match answer.2 with
    | .found content => content
    | _ => none

end Race

/-- A race in which `threads` contexts want the cell initialized and take turns. -/
def race (threads : Nat) (value : α) (c : WriteOnce α) : Race α :=
  let rounds := (List.replicate 8 (List.range threads)).flatten
  (Race.start c (List.replicate threads [.getOrInit value])).run rounds

end WriteOnce

end KernelMemory
