import KernelMemory.Concurrency.WriteOnce
import KernelMemory.Extent.Audit
import KernelMemory.Manager.Setup
import KernelMemory.Pool.Allocation
import KernelMemory.Pool.Tally
import KernelMemory.Space.Gather

/-!
# Memory managers

A memory manager ties the instances of one kernel together: the virtual and the
physical address space, and at most one pool of each kind. Requests are routed to the
instance they are meant for. A pool whose arena lies in the virtual address space as
a whole has its pages reserved there, so that they are not handed out a second time.
-/

namespace KernelMemory

/-- The memory instances of one kernel. -/
structure Manager where
  virtual : Space
  physical : Space
  nonPaged : Option Pool
  paged : Option Pool
  deriving Inhabited

namespace Manager

def pool? (m : Manager) : ArenaKind → Option Pool
  | .nonPaged => m.nonPaged
  | .paged => m.paged
  | .physical | .virtual => none

def pools (m : Manager) : List Pool :=
  m.nonPaged.toList ++ m.paged.toList

/-- The manager with a pool in the place of its kind. -/
def withPool (m : Manager) (p : Pool) : Manager :=
  match p.kind with
  | .nonPaged => { m with nonPaged := some p }
  | .paged => { m with paged := some p }
  | .physical | .virtual => m

def onVirtual {α : Type} (op : SpaceOperation α) : Operation Manager RequestError α :=
  op.within Manager.virtual fun m s => { m with virtual := s }

def onPhysical {α : Type} (op : SpaceOperation α) : Operation Manager RequestError α :=
  op.within Manager.physical fun m s => { m with physical := s }

/-! ## Creation -/

/-- A manager of both address spaces, without pools. -/
def create {σ : Type} (setup : Setup) : Operation σ RequestError Manager := do
  Operation.ofExcept setup.validate
  let virtual ← Space.create 0 setup.virtual
  let physical ← Space.create 1 setup.physical
  return ⟨virtual, physical, none, none⟩

/-- Attaches a pool, and reserves its arena if that lies in the virtual address space as a
whole. Of an arena that crosses an end of the address space nothing is reserved. -/
def attach (p : Pool) : Operation Manager RequestError Unit := do
  let m ← Operation.get
  if !p.kind.isPool then
    Operation.refuse (.invalidConfig p.kind)
  else if (m.pool? p.kind).isSome then
    Operation.refuse (.poolExists p.kind)
  else
    let arena ← Operation.ofExcept
      ((Range.ofLength p.arena.start p.arena.size).mapError RequestError.ofExtentError)
    if m.virtual.region.encloses arena then
      onVirtual (Space.reserve arena.start arena.length .pool)
    Operation.note .info ("mm: attached " ++ p.kind.name ++ " pool " ++ p.arena.text)
    Operation.modify fun m => m.withPool p

/-- A manager with a pool over every configured pool arena. -/
def createWithPools (setup : Setup) : Operation Memory RequestError Manager := do
  let m ← create setup
  setup.poolArenas.foldlM
    (fun m arena => do
      let p ← (Pool.create arena setup.policy).mapError RequestError.pool
      let (_, m) ← Operation.build m (attach p)
      return m)
    m

end Manager

/-- A manager and the memory that its pools lie in. -/
structure Machine where
  memory : Memory
  manager : Manager
  deriving Inhabited

abbrev MachineOperation (α : Type) : Type :=
  Operation Machine RequestError α

namespace Machine

def onManager {α : Type} (op : Operation Manager RequestError α) : MachineOperation α :=
  op.within Machine.manager fun s m => { s with manager := m }

def onMemory {ε α : Type} (op : Operation Memory ε α) : Operation Machine ε α :=
  op.within Machine.memory fun s m => { s with memory := m }

def onPool {α : Type} (op : PoolOperation α) : MachineOperation α :=
  onMemory (op.mapError RequestError.pool)

def onVirtual {α : Type} (op : SpaceOperation α) : MachineOperation α :=
  onManager (Manager.onVirtual op)

def onPhysical {α : Type} (op : SpaceOperation α) : MachineOperation α :=
  onManager (Manager.onPhysical op)

/-! ## Pools -/

def attach (p : Pool) : MachineOperation Unit :=
  onManager (Manager.attach p)

def poolAllocate (kind : ArenaKind) (size alignment : Nat) (tag : Tag) :
    MachineOperation Nat := do
  match (← Operation.get).manager.pool? kind with
  | none => Operation.refuse (.noPool kind)
  | some p => onPool (p.allocate size alignment tag)

/-- Returns a payload to the pool whose arena it lies in, and answers its size. -/
def poolFree (payload : Nat) : MachineOperation Nat := do
  match (← Operation.get).manager.pools.find? (·.contains payload) with
  | none => Operation.refuse (.pool (.invalidPointer payload))
  | some p => onPool (p.free payload)

/-! ## Address spaces -/

def allocateVirtual (hint : Option Nat) (size : Nat) (usage : Usage) : MachineOperation Nat :=
  onVirtual (Space.allocate hint size usage)

def allocatePhysical (hint : Option Nat) (size : Nat) (usage : Usage) : MachineOperation Nat :=
  onPhysical (Space.allocate hint size usage)

def reserveVirtual (start size : Nat) (usage : Usage) : MachineOperation Unit :=
  onVirtual (Space.reserve start size usage)

def reservePhysical (start size : Nat) (usage : Usage) : MachineOperation Unit :=
  onPhysical (Space.reserve start size usage)

def freeVirtual (address : Nat) (size : Option Nat) : MachineOperation Nat :=
  onVirtual (Space.free address size)

def freePhysical (address : Nat) (size : Option Nat) : MachineOperation Nat :=
  onPhysical (Space.free address size)

def freeGather (pieces : List Range) : MachineOperation Unit :=
  onPhysical (Space.freeGather pieces)

/-- Allocates physical memory in as many pieces as it takes, described in the buffer of
the caller. -/
def allocateGather (size : Nat) (usage : Usage) :
    Operation (Machine × List Range) RequestError Nat :=
  (Gathering.allocate size usage).within
    (fun (s, buffer) => ⟨s.manager.physical, buffer⟩)
    fun (s, _) g => ({ s with manager := { s.manager with physical := g.space } }, g.buffer)

/-! ## Auditing

Both address spaces are audited, then the pools. A defect of an address space is an
answer; a defect of a pool means that memory is corrupted, so it ends the operation. -/

def auditPool {ε : Type} (p : Pool) : Operation Machine ε Unit := do
  match ← (Operation.ofVerdict (p.audit (← Operation.get).memory)).attempt with
  | .ok () => return ()
  | .error violation => Operation.crash (.damagedAttachment p.kind violation)

/-- The first defect of an address space. -/
def audit : Operation Machine ExtentViolation Unit := do
  let m := (← Operation.get).manager
  Operation.ofExcept m.virtual.map.audit
  Operation.ofExcept m.physical.map.audit
  m.pools.forM auditPool

/-! ## Listing -/

/-- The lines of a listing: the address spaces, then the attached pools, each under a
line that names it. -/
def outline {ε : Type} : Operation Machine ε (List String) := do
  let m := (← Operation.get).manager
  let pools ← m.pools.mapM fun p =>
    return ("mm: " ++ p.kind.name ++ " pool") :: (← onMemory p.outline)
  return "mm: virtual space" :: m.virtual.map.outline
    ++ "mm: physical space" :: m.physical.map.outline ++ pools.flatten

end Machine

/-! ## Installation -/

namespace Manager

/-- Publishes a manager as the one of the system; there can be only one. -/
def install (m : Manager) : Operation (WriteOnce Manager) RequestError Unit := do
  let stored ← (WriteOnce.set m).attempt
  match stored with
  | .ok () => Operation.note .info "mm: memory manager installed"
  | .error _ => Operation.refuse .alreadyInstalled

end Manager

end KernelMemory
