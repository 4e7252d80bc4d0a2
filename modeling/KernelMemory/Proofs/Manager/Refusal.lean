import KernelMemory.Manager.Basic
import KernelMemory.Proofs.Pool.Refusal
import KernelMemory.Proofs.Space.Refusal

/-!
# Refusals of a memory manager

A manager routes every request to one instance, so a refusal changes nothing because no
instance changes anything when it refuses. Only attaching a pool concerns two: the arena is
reserved in the virtual address space, and the pool comes to the manager after that, where
nothing can be refused any more.

Whatever else happens in memory does not matter here. In particular the pools need not be
intact: a damaged header ends a call with a fault, which is not an answer.
-/

namespace KernelMemory

open Operation

namespace Manager

/-- Both address spaces have the property. -/
structure Spaces (I : Space → Prop) (m : Manager) : Prop where
  virtual : I m.virtual
  physical : I m.physical

/-- Both address spaces are managed. -/
abbrev Managed : Manager → Prop :=
  Spaces Space.Managed

section Keeps

variable {I : Space → Prop}

theorem keeps_onVirtual {α : Type} {op : SpaceOperation α} (h : op.Keeps I) :
    (onVirtual op).Keeps (Spaces I) :=
  h.within (fun _ hm => hm.virtual) fun _ _ hm hs => ⟨hs, hm.physical⟩

theorem keeps_onPhysical {α : Type} {op : SpaceOperation α} (h : op.Keeps I) :
    (onPhysical op).Keeps (Spaces I) :=
  h.within (fun _ hm => hm.physical) fun _ _ hm hs => ⟨hm.virtual, hs⟩

theorem Spaces.withPool {m : Manager} (h : m.Spaces I) (p : Pool) : (m.withPool p).Spaces I := by
  unfold Manager.withPool
  split
  all_goals exact ⟨h.virtual, h.physical⟩

theorem keeps_attach (hI : Space.Lasting I) (p : Pool) : (attach p).Keeps (Spaces I) := by
  unfold attach
  refine Keeps.get.bind fun m => ?_
  split
  · exact .refuse _
  · split
    · exact .refuse _
    · refine (Keeps.ofExcept _).bind fun arena => ?_
      have htake : (do
          note .info ("mm: attached " ++ p.kind.name ++ " pool " ++ p.arena.text)
          modify fun m => m.withPool p : Operation Manager RequestError Unit).Keeps (Spaces I) :=
        (Keeps.note _ _).bind fun _ _ hm _ => hm.withPool p
      dsimp only
      split
      · exact (keeps_onVirtual (hI.reserve _ _ _)).bind fun _ => htake
      · exact htake

end Keeps

theorem atomic_onVirtual {α : Type} {op : SpaceOperation α} (h : op.Atomic) :
    (onVirtual op).Atomic :=
  h.within fun _ => rfl

theorem atomic_attach (p : Pool) : (attach p).Atomic := by
  unfold attach
  refine .bind_reads .get fun m => ?_
  split
  · exact (Reads.refuse _).atomic
  · split
    · exact (Reads.refuse _).atomic
    · refine .bind_reads (.ofExcept _) fun arena => ?_
      have htake : (do
          note .info ("mm: attached " ++ p.kind.name ++ " pool " ++ p.arena.text)
          modify fun m => m.withPool p : Operation Manager RequestError Unit).Accepts :=
        (Accepts.note _ _).bind fun _ => .modify _
      dsimp only
      split
      · exact (atomic_onVirtual (Space.atomic_reserve _ _ _)).bind_accepts fun _ => htake
      · exact htake.atomic

/-! ## Creation -/

section Creation

variable {I : Space → Prop} {setup : Setup}

theorem yields_create {σ : Type} (hI : setup.validate = .ok () → ∀ owner,
      (Space.create owner setup.virtual : Operation σ RequestError Space).Yields I ∧
      (Space.create owner setup.physical : Operation σ RequestError Space).Yields I) :
    (create setup : Operation σ RequestError Manager).Yields (Spaces I) := by
  refine .ofExcept_bind fun _ hvalid => ?_
  refine (hI hvalid 0).1.bind fun virtual hvirtual => ?_
  refine (hI hvalid 1).2.bind fun physical hphysical => ?_
  exact .pure ⟨hvirtual, hphysical⟩

theorem yields_createWithPools (hlasting : Space.Lasting I)
    (hI : setup.validate = .ok () → ∀ owner,
      (Space.create owner setup.virtual : Operation Memory RequestError Space).Yields I ∧
      (Space.create owner setup.physical : Operation Memory RequestError Space).Yields I) :
    (createWithPools setup).Yields (Spaces I) := by
  refine (yields_create hI).bind fun m hm => .foldlM (fun m arena hm => ?_) _ hm
  refine .bind_last _ fun p => ?_
  exact (Yields.build (keeps_attach hlasting p) hm).bind fun built hbuilt => .pure hbuilt

end Creation

end Manager

namespace Machine

/-! ## One call -/

inductive Call
  | allocateVirtual (hint : Option Nat) (size : Nat) (usage : Usage)
  | allocatePhysical (hint : Option Nat) (size : Nat) (usage : Usage)
  | reserveVirtual (start size : Nat) (usage : Usage)
  | reservePhysical (start size : Nat) (usage : Usage)
  | freeVirtual (address : Nat) (size : Option Nat)
  | freePhysical (address : Nat) (size : Option Nat)
  | gather (size : Nat) (usage : Usage)
  | freeGather (pieces : List Range)
  | poolAllocate (kind : ArenaKind) (size alignment : Nat) (tag : Tag)
  | poolFree (payload : Nat)
  | attach (p : Pool)
  deriving DecidableEq

/-- An operation that has no use for the buffer of its caller. -/
def ignoringBuffer {α : Type} (op : MachineOperation α) :
    Operation (Machine × List Range) RequestError α :=
  op.within Prod.fst fun (_, buffer) s => (s, buffer)

/-- Carries out a call for a client with a buffer, and drops what it answers. -/
def Call.perform : Call → Operation (Machine × List Range) RequestError Unit
  | allocateVirtual hint size usage => ignoringBuffer do
    let _ ← Machine.allocateVirtual hint size usage
  | allocatePhysical hint size usage => ignoringBuffer do
    let _ ← Machine.allocatePhysical hint size usage
  | reserveVirtual start size usage => ignoringBuffer (Machine.reserveVirtual start size usage)
  | reservePhysical start size usage => ignoringBuffer (Machine.reservePhysical start size usage)
  | freeVirtual address size => ignoringBuffer do let _ ← Machine.freeVirtual address size
  | freePhysical address size => ignoringBuffer do let _ ← Machine.freePhysical address size
  | gather size usage => do let _ ← Machine.allocateGather size usage
  | freeGather pieces => ignoringBuffer (Machine.freeGather pieces)
  | poolAllocate kind size alignment tag => ignoringBuffer do
    let _ ← Machine.poolAllocate kind size alignment tag
  | poolFree payload => ignoringBuffer do let _ ← Machine.poolFree payload
  | attach p => ignoringBuffer (Machine.attach p)

section Keeps

variable {I : Space → Prop}

theorem keeps_onManager {α : Type} {op : Operation Manager RequestError α}
    (h : op.Keeps (Manager.Spaces I)) : (onManager op).Keeps fun s => s.manager.Spaces I :=
  h.within (fun _ hs => hs) fun _ _ _ hm => hm

theorem keeps_onPool {α : Type} (op : PoolOperation α) :
    (onPool op).Keeps fun s => s.manager.Spaces I :=
  fun _ hs _ => hs

theorem keeps_ignoringBuffer {α : Type} {op : MachineOperation α}
    (h : op.Keeps fun s => s.manager.Spaces I) :
    (ignoringBuffer op).Keeps fun s => s.1.manager.Spaces I :=
  h.within (fun _ hs => hs) fun _ _ _ hm => hm

theorem keeps_allocateGather (hI : Space.Lasting I) (size : Nat) (usage : Usage) :
    (allocateGather size usage).Keeps fun s => s.1.manager.Spaces I :=
  (hI.gather size usage).within (fun _ hs => hs.physical) fun _ _ hs hg => ⟨hs.virtual, hg⟩

/-- A call keeps what its address space keeps. -/
theorem Call.keeps_perform (hI : Space.Lasting I) (c : Call)
    (hpieces : ∀ pieces, c = .freeGather pieces → (Space.freeGather pieces).Keeps I) :
    c.perform.Keeps fun s => s.1.manager.Spaces I := by
  cases c with
  | allocateVirtual hint size usage =>
      exact keeps_ignoringBuffer ((keeps_onManager (Manager.keeps_onVirtual
        (hI.allocate hint size usage))).bind fun _ => .pure _)
  | allocatePhysical hint size usage =>
      exact keeps_ignoringBuffer ((keeps_onManager (Manager.keeps_onPhysical
        (hI.allocate hint size usage))).bind fun _ => .pure _)
  | reserveVirtual start size usage =>
      exact keeps_ignoringBuffer (keeps_onManager (Manager.keeps_onVirtual
        (hI.reserve start size usage)))
  | reservePhysical start size usage =>
      exact keeps_ignoringBuffer (keeps_onManager (Manager.keeps_onPhysical
        (hI.reserve start size usage)))
  | freeVirtual address size =>
      exact keeps_ignoringBuffer ((keeps_onManager (Manager.keeps_onVirtual
        (hI.free address size))).bind fun _ => .pure _)
  | freePhysical address size =>
      exact keeps_ignoringBuffer ((keeps_onManager (Manager.keeps_onPhysical
        (hI.free address size))).bind fun _ => .pure _)
  | gather size usage => exact (keeps_allocateGather hI size usage).bind fun _ => .pure _
  | freeGather pieces =>
      exact keeps_ignoringBuffer (keeps_onManager (Manager.keeps_onPhysical
        (hpieces pieces rfl)))
  | poolAllocate kind size alignment tag =>
      refine keeps_ignoringBuffer (Keeps.bind ?_ fun _ => .pure _)
      refine Keeps.get.bind fun s => ?_
      split
      · exact .refuse _
      · exact keeps_onPool _
  | poolFree payload =>
      refine keeps_ignoringBuffer (Keeps.bind ?_ fun _ => .pure _)
      refine Keeps.get.bind fun s => ?_
      split
      · exact .refuse _
      · exact keeps_onPool _
  | attach p => exact keeps_ignoringBuffer (keeps_onManager (Manager.keeps_attach hI p))

end Keeps

theorem atomic_onManager {α : Type} {op : Operation Manager RequestError α} (h : op.Atomic) :
    (onManager op).Atomic :=
  h.within fun _ => rfl

theorem atomic_onVirtual {α : Type} {op : SpaceOperation α} (h : op.Atomic) :
    (onVirtual op).Atomic :=
  atomic_onManager (h.within fun _ => rfl)

theorem atomic_onPhysical {α : Type} {op : SpaceOperation α} (h : op.Atomic) :
    (onPhysical op).Atomic :=
  atomic_onManager (h.within fun _ => rfl)

theorem atomic_onPool {α : Type} {op : PoolOperation α} (h : op.Atomic) : (onPool op).Atomic :=
  (h.mapError _).within fun _ => rfl

theorem atomic_ignoringBuffer {α : Type} {op : MachineOperation α} (h : op.Atomic) :
    (ignoringBuffer op).Atomic :=
  h.within fun _ => rfl

theorem atomic_poolAllocate (kind : ArenaKind) (size alignment : Nat) (tag : Tag) :
    (poolAllocate kind size alignment tag).Atomic := by
  refine .bind_reads .get fun s => ?_
  split
  · exact (Reads.refuse _).atomic
  · exact atomic_onPool (Pool.atomic_allocate _ size alignment tag)

theorem atomic_poolFree (payload : Nat) : (poolFree payload).Atomic := by
  refine .bind_reads .get fun s => ?_
  split
  · exact (Reads.refuse _).atomic
  · exact atomic_onPool (Pool.atomic_free _ payload)

/-- The pieces of a refused gather allocation stay in the buffer; nothing else has changed. -/
theorem allocateGather_refused {s : Machine} {buffer : List Range} {size : Nat} {usage : Usage}
    {e : RequestError} (h : ((allocateGather size usage).outcome (s, buffer)).1 = .error e) :
    ((allocateGather size usage).outcome (s, buffer)).2.1 = s := by
  have hspace := Gathering.allocate_refused (g := ⟨s.manager.physical, buffer⟩) h
  rw [allocateGather, outcome_within]
  dsimp only
  rw [hspace]

theorem freeGather_refused {s : Machine} (hs : s.manager.Managed) {pieces : List Range}
    {e : RequestError} (h : ((freeGather pieces).outcome s).1 = .error e) :
    ((freeGather pieces).outcome s).2 = s := by
  have hspace := Space.freeGather_refused hs.physical h
  show { s with manager := { s.manager with
    physical := ((Space.freeGather pieces).outcome s.manager.physical).2 } } = s
  rw [hspace]

/-! ## Every run -/

/-- The machines that a run of any calls reaches without running out of slots, while others
write to memory as they like. -/
inductive Reachable : Machine → Prop
  | create (setup : Setup) (memory : Memory) {m : Manager}
      (h : ((Manager.create setup : Operation Memory RequestError Manager).run memory).verdict =
        .ok m) : Reachable ⟨memory, m⟩
  | createWithPools (setup : Setup) (memory : Memory) {m : Manager}
      (h : ((Manager.createWithPools setup).run memory).verdict = .ok m) :
      Reachable ⟨((Manager.createWithPools setup).run memory).state, m⟩
  | call {s : Machine} (hs : Reachable s) (c : Call) (buffer : List Range)
      (hslots : ¬ (c.perform.run (s, buffer)).verdict.IsExhaustion) :
      Reachable (c.perform.run (s, buffer)).state.1
  | write {s : Machine} (hs : Reachable s) (memory : Memory) : Reachable { s with memory }

theorem Reachable.managed {s : Machine} (hs : Reachable s) : s.manager.Managed := by
  have hcreate : ∀ arena owner,
      (Space.create owner arena : Operation Memory RequestError Space).Yields Space.Managed :=
    fun arena owner => Space.yields_create owner arena
  induction hs with
  | create setup memory h =>
      exact Manager.yields_create (fun _ _ => ⟨hcreate _ _, hcreate _ _⟩) memory _ h
  | createWithPools setup memory h =>
      exact Manager.yields_createWithPools Space.lasting_managed
        (fun _ _ => ⟨hcreate _ _, hcreate _ _⟩) memory _ h
  | call _ c buffer hslots ih =>
      exact c.keeps_perform Space.lasting_managed (fun pieces _ => Space.keeps_freeGather pieces)
        _ ih hslots
  | write _ memory ih => exact ih

/-- A call that is refused has changed nothing: not the extents of the address spaces, their
handles or the order in which free ones are listed, nor the pools that are attached, nor a
byte of memory. -/
theorem refused_call_changes_nothing {s : Machine} (hs : Reachable s) (c : Call)
    (buffer : List Range) {reply : Reply (Machine × List Range) RequestError Unit}
    (hreply : c.perform.run (s, buffer) = reply) {e : RequestError}
    (he : reply.verdict = .error e) : reply.state.1 = s := by
  subst hreply
  rw [Operation.verdict_run] at he
  rw [Operation.state_run]
  have hatomic : c.perform.Atomic → (c.perform.outcome (s, buffer)).2.1 = s := fun h => by
    rw [h (s, buffer) e he]
  have hanswer : ∀ {α : Type} {op : MachineOperation α}, op.Atomic →
      (ignoringBuffer do let _ ← op).Atomic := fun h =>
    atomic_ignoringBuffer (h.bind_accepts fun _ => .pure _)
  cases c with
  | allocateVirtual hint size usage =>
      exact hatomic (hanswer (atomic_onVirtual (Space.atomic_allocate hint size usage)))
  | allocatePhysical hint size usage =>
      exact hatomic (hanswer (atomic_onPhysical (Space.atomic_allocate hint size usage)))
  | reserveVirtual start size usage =>
      exact hatomic (atomic_ignoringBuffer (atomic_onVirtual
        (Space.atomic_reserve start size usage)))
  | reservePhysical start size usage =>
      exact hatomic (atomic_ignoringBuffer (atomic_onPhysical
        (Space.atomic_reserve start size usage)))
  | freeVirtual address size =>
      exact hatomic (hanswer (atomic_onVirtual (Space.atomic_free address size)))
  | freePhysical address size =>
      exact hatomic (hanswer (atomic_onPhysical (Space.atomic_free address size)))
  | gather size usage =>
      obtain ⟨hrefused, hstate⟩ := Accepts.error_of_bind (fun _ => .pure _) he
      rw [Call.perform, hstate]
      exact allocateGather_refused hrefused
  | freeGather pieces => exact freeGather_refused hs.managed he
  | poolAllocate kind size alignment tag =>
      exact hatomic (hanswer (atomic_poolAllocate kind size alignment tag))
  | poolFree payload => exact hatomic (hanswer (atomic_poolFree payload))
  | attach p =>
      exact hatomic (atomic_ignoringBuffer (atomic_onManager (Manager.atomic_attach p)))

/-- A machine without pools, in memory that nobody has written to. -/
def created (setup : Setup) : Machine :=
  ⟨.zeroed,
    match ((Manager.create setup : Operation Memory RequestError Manager).run .zeroed).verdict with
    | .ok m => m
    | _ => default⟩

theorem verdict_create {setup : Setup} {virtual physical : Range}
    (hsetup : setup.validate = .ok ())
    (hvirtual : Range.ofLength setup.virtual.start setup.virtual.size = .ok virtual)
    (hphysical : Range.ofLength setup.physical.start setup.physical.size = .ok physical) :
    ∃ m, ((Manager.create setup : Operation Memory RequestError Manager).run .zeroed).verdict =
      .ok m ∧ created setup = ⟨.zeroed, m⟩ := by
  obtain ⟨s, _, hs, -⟩ := Space.outcome_create 0 hvirtual Memory.zeroed
  obtain ⟨t, _, ht, -⟩ := Space.outcome_create 1 hphysical Memory.zeroed
  have hverdict : ((Manager.create setup : Operation Memory RequestError Manager).run
      .zeroed).verdict = .ok ⟨s, t, none, none⟩ := by
    rw [verdict_run, Manager.create, hsetup, outcome_bind_ok (outcome_ofExcept_ok () _),
      outcome_bind_ok hs, outcome_bind_ok ht, outcome_pure]
  refine ⟨_, hverdict, ?_⟩
  unfold created
  rw [hverdict]

theorem created_reachable {setup : Setup} {virtual physical : Range}
    (hsetup : setup.validate = .ok ())
    (hvirtual : Range.ofLength setup.virtual.start setup.virtual.size = .ok virtual)
    (hphysical : Range.ofLength setup.physical.start setup.physical.size = .ok physical) :
    Reachable (created setup) := by
  obtain ⟨m, hverdict, hcreated⟩ := verdict_create hsetup hvirtual hphysical
  exact hcreated ▸ .create setup .zeroed hverdict

/-- Of two pieces only the first was gathered. It is not released without the other. -/
theorem refused_release_keeps_pieces :
    let setup : Setup :=
      ⟨⟨.virtual, 0x10000, 0x4000⟩, ⟨.physical, 0x1000, 0x4000⟩, none, none, .touched⟩
    let s := ((Call.gather 0x1800 .inUse).perform.run
      (created setup, [⟨1, 2, by decide, by decide⟩])).state.1
    let pieces : List Range :=
      [⟨0x1000, 0x3000, by decide, by decide⟩, ⟨0x4000, 0x5000, by decide, by decide⟩]
    let reply := (Call.freeGather pieces).perform.run (s, [])
    s.manager.physical.map.usageAt? 0x2fff = some .inUse ∧
      reply.verdict = .error (.notAllocated 0x4000) ∧ reply.state.1 = s := by
  intro setup s pieces reply
  obtain ⟨_, hvirtual, -⟩ := Range.ofLength_eq_ok (show 0 < 0x4000 by decide)
    (show 0x10000 + 0x4000 < Word.bound by decide)
  obtain ⟨_, hphysical, -⟩ := Range.ofLength_eq_ok (show 0 < 0x4000 by decide)
    (show 0x1000 + 0x4000 < Word.bound by decide)
  have hgather : ((Call.gather 0x1800 .inUse).perform.run
      (created setup, [⟨1, 2, by decide, by decide⟩])).verdict = .ok () := by decide +kernel
  have hs : Reachable s :=
    (created_reachable (by decide) hvirtual hphysical).call (.gather 0x1800 .inUse) _
      fun ⟨_, h⟩ => nomatch hgather.symm.trans h
  have hrefused : reply.verdict = .error (.notAllocated 0x4000) := by decide +kernel
  exact ⟨by decide +kernel, hrefused, refused_call_changes_nothing hs (.freeGather pieces) []
    (show _ = reply from rfl) hrefused⟩

end Machine

end KernelMemory
