import KernelMemory.Manager.Basic

/-!
# Kernels

A kernel starts with a manager at hand, which can be installed once. From then on the
installed manager serves everybody, until another one is at hand.
-/

namespace KernelMemory

/-- The memory of a kernel and its managers. -/
structure Kernel where
  memory : Memory
  /-- The manager that was created last, unless it has been given up for installation. -/
  atHand : Option Manager
  installed : WriteOnce Manager

abbrev KernelOperation (α : Type) : Type :=
  Operation Kernel RequestError α

namespace Kernel

variable {ε α : Type}

def empty : Kernel :=
  ⟨.zeroed, none, .empty⟩

def installed? (s : Kernel) : Option Manager :=
  s.installed.get?

/-- The manager that serves requests: the one at hand, or else the installed one. -/
def manager? (s : Kernel) : Option Manager :=
  s.atHand <|> s.installed?

/-- Replaces the state of the manager that serves requests. -/
def setManager (s : Kernel) (m : Manager) : Kernel :=
  match s.atHand with
  | some _ => { s with atHand := some m }
  | none => { s with installed := s.installed.write m }

def onMemory (op : Operation Memory ε α) : Operation Kernel ε α :=
  op.within Kernel.memory fun s m => { s with memory := m }

def onMachine (m : Manager) (op : Operation Machine ε α) : Operation Kernel ε α :=
  op.within (fun s => ⟨s.memory, m⟩)
    fun s after => { s.setManager after.manager with memory := after.memory }

/-- Creates a manager, with pools if they are asked for, and puts it at hand. -/
def start (setup : Setup) (withPools : Bool) : KernelOperation Unit := do
  let m ← onMemory (if withPools then Manager.createWithPools setup else Manager.create setup)
  Operation.modify fun s => { s with atHand := some m }

/-- Gives up a manager at hand to be the installed one. -/
def install (m : Manager) : KernelOperation Unit := do
  Operation.modify fun s => { s with atHand := none }
  m.install.within Kernel.installed fun s c => { s with installed := c }

end Kernel

end KernelMemory
