import KernelMemory.Concurrency.Contention
import KernelMemory.Proofs.Concurrency.Interleaving
import Mathlib.Data.Multiset.Bind

/-!
# Exclusion by a spin lock

Of the contexts that visit a lock one at most is between an exchange that succeeded and the
release. The flag counts it: a step that makes such a context out of another sets a flag that
was clear, and a step that makes another out of such a context clears it. Failed exchanges set
a flag that is set.

So the value is that context's alone. While there is none, it is what the sections entered so
far make of the first value, one after another; while there is one, it is what the sections
before make of it and the last has made of that so far. No update is lost, since every
section reads what the ones before have left.
-/

namespace KernelMemory

namespace SpinLock

variable {α : Type}

/-! ## Sections -/

namespace Section

/-- A section that began with a value has come to `rest` by its own reads and writes, and the
value to another. -/
inductive Leads (work : Section α) (before : α) : Section α → α → Prop
  | start : Leads work before work before
  | read {next : α → Section α} {value : α} (h : Leads work before (.read next) value) :
      Leads work before (next value) value
  | write {rest : Section α} {value written : α}
      (h : Leads work before (.write written rest) value) : Leads work before rest written

/-- What is left of a section makes of the value what the whole makes of the first one. -/
theorem Leads.apply_eq {work rest : Section α} {before value : α}
    (h : Leads work before rest value) : rest.apply value = work.apply before := by
  induction h with
  | start => rfl
  | read _ ih => exact ih
  | write _ ih => exact ih

end Section

/-- What sections make of a value one after another. -/
def serial (sections : List (Section α)) (initial : α) : α :=
  sections.foldl (fun value work => work.apply value) initial

theorem serial_concat (sections : List (Section α)) (work : Section α) (initial : α) :
    serial (sections ++ [work]) initial = work.apply (serial sections initial) := by
  rw [serial, List.foldl_append]
  rfl

/-! ## Steps -/

namespace Context

variable {c c' : Context α} {s s' : Visited α}

theorem exchange_cases (c : Context α) (s : Visited α) (won lost : Phase α) :
    (s.lock.locked = false ∧ c.exchange s won lost =
        ({ c with phase := won }, { s with lock := { s.lock with locked := true } })) ∨
      (s.lock.locked = true ∧ c.exchange s won lost = ({ c with phase := lost }, s)) := by
  obtain ⟨lock, entered, declined⟩ := s
  obtain ⟨name, locked, contended, value⟩ := lock
  cases locked with
  | false => exact .inl ⟨rfl, rfl⟩
  | true => exact .inr ⟨rfl, rfl⟩

/-- What a step of a context can be to the lock and to the value. -/
inductive Change (c : Context α) (s : Visited α) (c' : Context α) (s' : Visited α) : Prop
  /-- A context without the lock goes on without it. -/
  | aside (before : c.phase.hasLock = false) (after : c'.phase.hasLock = false)
      (locked : s'.lock.locked = s.lock.locked) (value : s'.lock.value = s.lock.value)
      (entered : s'.entered = s.entered)
  /-- The flag was clear, and the context has set it. -/
  | takes (work : Section α) (before : c.phase.hasLock = false)
      (after : c'.phase = .entering work) (clear : s.lock.locked = false)
      (locked : s'.lock.locked = true) (value : s'.lock.value = s.lock.value)
      (entered : s'.entered = s.entered)
  | enters (work : Section α) (before : c.phase = .entering work)
      (after : c'.phase = .inside work) (locked : s'.lock.locked = s.lock.locked)
      (value : s'.lock.value = s.lock.value) (entered : s'.entered = s.entered ++ [work])
  | reads (next : α → Section α) (before : c.phase = .inside (.read next))
      (after : c'.phase = .inside (next s.lock.value)) (same : s' = s)
  | writes (written : α) (rest : Section α) (before : c.phase = .inside (.write written rest))
      (after : c'.phase = .inside rest) (locked : s'.lock.locked = s.lock.locked)
      (value : s'.lock.value = written) (entered : s'.entered = s.entered)
  | leaves (before : c.phase = .inside .leave) (after : c'.phase.hasLock = false)
      (locked : s'.lock.locked = false) (value : s'.lock.value = s.lock.value)
      (entered : s'.entered = s.entered)

/-- An exchange is a change if the context has not got the lock and would not get it by
losing. -/
theorem change_exchange {work : Section α} {lost : Phase α} (hbefore : c.phase.hasLock = false)
    (hlost : lost.hasLock = false) :
    Change c s (c.exchange s (.entering work) lost).1 (c.exchange s (.entering work) lost).2 := by
  rcases exchange_cases c s (.entering work) lost with ⟨hclear, hout⟩ | ⟨-, hout⟩
  · rw [hout]
    exact .takes work hbefore rfl hclear rfl rfl rfl
  · rw [hout]
    exact .aside hbefore hlost rfl rfl rfl

theorem change_step (c : Context α) (s : Visited α) : Change c s (c.step s).1 (c.step s).2 := by
  obtain ⟨phase, visits, interrupts, masked⟩ := c
  cases phase with
  | idle =>
      cases visits with
      | nil => exact .aside rfl rfl rfl rfl rfl
      | cons v visits =>
          refine .aside rfl ?_ rfl rfl rfl
          obtain ⟨request, work⟩ := v
          cases request <;> rfl
  | masking work => exact .aside rfl rfl rfl rfl rfl
  | attempting work more =>
      cases more with
      | zero => exact change_exchange rfl rfl
      | succ more => exact change_exchange rfl rfl
  | declining work => exact .aside rfl rfl rfl rfl rfl
  | arriving work => exact change_exchange rfl rfl
  | counting work => exact .aside rfl rfl rfl rfl rfl
  | watching work =>
      refine .aside rfl ?_ rfl rfl rfl
      simp only [step]
      split <;> rfl
  | retrying work => exact change_exchange rfl rfl
  | entering work => exact .enters work rfl rfl rfl rfl rfl
  | inside rest =>
      cases rest with
      | leave =>
          refine .leaves rfl ?_ rfl rfl rfl
          cases masked <;> rfl
      | read next => exact .reads next rfl rfl rfl
      | write written rest => exact .writes written rest rfl rfl rfl rfl rfl
  | restoring => exact .aside rfl rfl rfl rfl rfl

/-- A flag that is set keeps everybody out. -/
theorem Change.hasLock_eq_false (h : Change c s c' s') (hlocked : s.lock.locked = true)
    (hc : c.phase.hasLock = false) : c'.phase.hasLock = false := by
  cases h with
  | aside _ after => exact after
  | takes _ _ _ clear => exact nomatch clear.symm.trans hlocked
  | enters _ before => rw [before] at hc; cases hc
  | reads _ before => rw [before] at hc; cases hc
  | writes _ _ before => rw [before] at hc; cases hc
  | leaves _ after => exact after

end Context

/-! ## The invariant -/

/-- What the value is made of, as the context sees it that has the lock or is the first to
get it. -/
def Phase.Explains (initial : α) (s : Visited α) : Phase α → Prop
  | .inside rest => ∃ earlier work, s.entered = earlier ++ [work] ∧
      work.Leads (serial earlier initial) rest s.lock.value
  | _ => s.lock.value = serial s.entered initial

theorem Phase.explains_iff {initial : α} {s : Visited α} {phase : Phase α}
    (h : phase.hasGuard = false) :
    phase.Explains initial s ↔ s.lock.value = serial s.entered initial := by
  cases phase with
  | inside rest => cases h
  | _ => exact Iff.rfl

theorem Phase.hasGuard_eq_false {phase : Phase α} (h : phase.hasLock = false) :
    phase.hasGuard = false := by
  cases phase with
  | inside rest => cases h
  | _ => rfl

/-- The flag counts the contexts that have the lock, and the value is explained by the one
that has it, or by itself. -/
structure Sound (initial : α) (s : Visited α) (contexts : Multiset (Context α)) : Prop where
  holders : contexts.countP (·.phase.hasLock) = s.lock.locked.toNat
  free : s.lock.locked = false → s.lock.value = serial s.entered initial
  held : ∀ c ∈ contexts, c.phase.hasLock = true → c.phase.Explains initial s

namespace Sound

variable {initial : α} {c c' : Context α} {s s' : Visited α} {others : Multiset (Context α)}

/-- The context that has the lock is the only one, and explains the value. -/
theorem holder (h : Sound initial s (c ::ₘ others)) {phase : Phase α} (hphase : c.phase = phase)
    (hlock : phase.hasLock = true) :
    s.lock.locked = true ∧ others.countP (·.phase.hasLock) = 0 ∧ phase.Explains initial s := by
  subst hphase
  have hcount := h.holders
  have hvalue := h.held c (Multiset.mem_cons_self c others) hlock
  rw [Multiset.countP_cons, if_pos hlock] at hcount
  cases hlocked : s.lock.locked with
  | false => rw [hlocked] at hcount; cases hcount
  | true => rw [hlocked] at hcount; exact ⟨rfl, Nat.succ.inj hcount, hvalue⟩

theorem others_of_clear (h : Sound initial s (c ::ₘ others)) (hclear : s.lock.locked = false) :
    others.countP (·.phase.hasLock) = 0 := by
  have hcount := h.holders
  rw [hclear, Multiset.countP_cons] at hcount
  exact Nat.eq_zero_of_add_eq_zero_right hcount

/-- Where none of the others has the lock, the context that has taken a step answers for the
flag and for the value. -/
theorem of_alone (hothers : others.countP (·.phase.hasLock) = 0)
    (hlocked : c'.phase.hasLock = s'.lock.locked) (hvalue : c'.phase.Explains initial s') :
    Sound initial s' (c' ::ₘ others) where
  holders := by
    rw [Multiset.countP_cons, hothers, hlocked]
    cases s'.lock.locked <;> rfl
  free hclear := by
    exact (Phase.explains_iff (Phase.hasGuard_eq_false (hlocked.trans hclear))).mp hvalue
  held d hd hlock := by
    rcases Multiset.mem_cons.mp hd with rfl | hd
    · exact hvalue
    · exact absurd hlock (Multiset.countP_eq_zero.mp hothers d hd)

end Sound

/-- What a phase explains is a matter of the value and of the sections entered. -/
theorem Phase.Explains.congr {initial : α} {s s' : Visited α} {phase : Phase α}
    (h : phase.Explains initial s) (hvalue : s'.lock.value = s.lock.value)
    (hentered : s'.entered = s.entered) : phase.Explains initial s' := by
  cases phase with
  | inside rest =>
      simp only [Explains, hvalue, hentered]
      exact h
  | _ => exact hvalue.trans (h.trans (congrArg (serial · initial) hentered.symm))

theorem preserves_sound (initial : α) : Interleaving.Preserves Context.step (Sound initial) := by
  intro s c others h
  have hchange := c.change_step s
  generalize (c.step s).1 = c' at hchange ⊢
  generalize (c.step s).2 = s' at hchange ⊢
  -- unless the step is one aside, the context has the lock or gets it, and is alone in that
  cases hchange with
  | aside before after locked value entered =>
      have hcount := h.holders
      rw [Multiset.countP_cons, before] at hcount
      refine ⟨?_, ?_, ?_⟩
      · rw [Multiset.countP_cons, after, locked]
        exact hcount
      · intro hclear
        rw [value, entered]
        exact h.free (locked ▸ hclear)
      · intro d hd hlock
        rcases Multiset.mem_cons.mp hd with rfl | hd
        · exact nomatch after.symm.trans hlock
        · exact (h.held d (Multiset.mem_cons_of_mem hd) hlock).congr value entered
  | takes work before after clear locked value entered =>
      refine Sound.of_alone (h.others_of_clear clear) (by rw [after, locked]; rfl) ?_
      rw [after]
      exact value.trans ((h.free clear).trans (congrArg (serial · initial) entered.symm))
  | enters work before after locked value entered =>
      obtain ⟨hlocked, hothers, hvalue⟩ := h.holder before rfl
      refine Sound.of_alone hothers (by rw [after, locked, hlocked]; rfl) ?_
      rw [after]
      refine ⟨s.entered, work, entered, ?_⟩
      rw [value, hvalue]
      exact .start
  | reads next before after same =>
      subst same
      obtain ⟨hlocked, hothers, earlier, work, hentered, hleads⟩ := h.holder before rfl
      refine Sound.of_alone hothers (by rw [after, hlocked]; rfl) ?_
      rw [after]
      exact ⟨earlier, work, hentered, hleads.read⟩
  | writes written rest before after locked value entered =>
      obtain ⟨hlocked, hothers, earlier, work, hentered, hleads⟩ := h.holder before rfl
      refine Sound.of_alone hothers (by rw [after, locked, hlocked]; rfl) ?_
      rw [after]
      exact ⟨earlier, work, entered.trans hentered, value ▸ hleads.write⟩
  | leaves before after locked value entered =>
      obtain ⟨-, hothers, earlier, work, hentered, hleads⟩ := h.holder before rfl
      refine Sound.of_alone hothers (after.trans locked.symm) ?_
      refine (Phase.explains_iff (Phase.hasGuard_eq_false after)).mpr ?_
      rw [value, entered, hentered, serial_concat]
      exact hleads.apply_eq

/-! ## Visits -/

def Phase.pending : Phase α → List (Section α)
  | .masking work | .attempting work _ | .declining work | .arriving work | .counting work
  | .watching work | .retrying work | .entering work => [work]
  | .idle | .inside _ | .restoring => []

/-- The sections that a context has neither entered nor given up. -/
def Context.ahead (c : Context α) : List (Section α) :=
  c.phase.pending ++ c.visits.map Visit.work

/-- What has become of every visit. -/
def fates (s : Visited α) (ahead : Multiset (Section α)) : Multiset (Section α) :=
  (s.entered : Multiset (Section α)) + s.declined + ahead

theorem Context.fates_exchange (c : Context α) (s : Visited α) {won lost : Phase α}
    (hwon : won.pending = c.phase.pending) (hlost : lost.pending = c.phase.pending) :
    fates (c.exchange s won lost).2 (c.exchange s won lost).1.ahead = fates s c.ahead := by
  rcases exchange_cases c s won lost with ⟨-, hout⟩ | ⟨-, hout⟩
  · rw [hout, ahead, hwon]
    rfl
  · rw [hout, ahead, hlost]
    rfl

/-- A step moves a section at most from those ahead to those entered or given up. -/
theorem Context.fates_step (c : Context α) (s : Visited α) :
    fates (c.step s).2 (c.step s).1.ahead = fates s c.ahead := by
  obtain ⟨phase, visits, interrupts, masked⟩ := c
  cases phase with
  | idle =>
      cases visits with
      | nil => rfl
      | cons v visits =>
          obtain ⟨request, work⟩ := v
          cases request <;> rfl
  | attempting work more =>
      cases more with
      | zero => exact fates_exchange _ s rfl rfl
      | succ more => exact fates_exchange _ s rfl rfl
  | arriving work => exact fates_exchange _ s rfl rfl
  | retrying work => exact fates_exchange _ s rfl rfl
  | declining work =>
      simp only [step, fates, ahead, Phase.pending, ← Multiset.coe_add]
      ac_rfl
  | entering work =>
      simp only [step, fates, ahead, Phase.pending, ← Multiset.coe_add]
      ac_rfl
  | watching work =>
      simp only [step]
      split <;> rfl
  | inside rest =>
      cases rest with
      | leave => cases masked <;> rfl
      | read next => rfl
      | write written rest => rfl
  | masking work => rfl
  | counting work => rfl
  | restoring => rfl

theorem preserves_fates (all : Multiset (Section α)) :
    Interleaving.Preserves Context.step fun s contexts =>
      fates s (contexts.bind fun c => c.ahead) = all := by
  intro s c others h
  rw [Multiset.cons_bind] at h ⊢
  have hstep := c.fates_step s
  simp only [fates, ← add_assoc] at h hstep ⊢
  rw [hstep, h]

/-! ## Every interleaving -/

/-- There is never more than one guard. The flag is set exactly while there is one or an
exchange has succeeded that makes one, and while it is set no step gets the lock for a context
that has not got it. Without a guard the value is what the sections entered so far make of
the first one in their order; the guard there may be is that of the last of them, which has
come to some point. Every visit that was to be made has been entered once, or given up, or is
ahead of its context. -/
structure Contention.Excludes (initial : α) (visits : List (Interrupts × List (Visit α)))
    (s : Contention α) : Prop where
  guards : s.contexts.countP (·.phase.hasGuard) ≤ 1
  locked_iff : s.shared.lock.locked = true ↔
    ∃ c ∈ s.contexts, c.phase.hasGuard = true ∨ ∃ work, c.phase = .entering work
  excluded : s.shared.lock.locked = true → ∀ c ∈ s.contexts, c.phase.hasLock = false →
    (c.step s.shared).1.phase.hasLock = false
  value : (∀ c ∈ s.contexts, c.phase.hasGuard = false) →
    s.shared.lock.value = serial s.shared.entered initial
  guarded : ∀ c ∈ s.contexts, ∀ rest, c.phase = .inside rest → ∃ earlier work,
    s.shared.entered = earlier ++ [work] ∧
      work.Leads (serial earlier initial) rest s.shared.lock.value
  visits : (s.shared.entered ++ s.shared.declined ++ s.contexts.flatMap Context.ahead).Perm
    (visits.flatMap fun own => own.2.map Visit.work)

theorem Phase.hasLock_iff {phase : Phase α} :
    phase.hasLock = true ↔ phase.hasGuard = true ∨ ∃ work, phase = .entering work := by
  cases phase <;> simp [hasLock, hasGuard]

theorem Sound.locked_iff {initial : α} {s : Visited α} {contexts : Multiset (Context α)}
    (h : Sound initial s contexts) :
    s.lock.locked = true ↔ ∃ c ∈ contexts, c.phase.hasLock = true := by
  have hcount := h.holders
  rw [← Multiset.countP_pos, hcount]
  cases s.lock.locked <;> decide

theorem Sound.value_eq {initial : α} {s : Visited α} {contexts : Multiset (Context α)}
    (h : Sound initial s contexts) (hnone : ∀ c ∈ contexts, c.phase.hasGuard = false) :
    s.lock.value = serial s.entered initial := by
  cases hlocked : s.lock.locked with
  | false => exact h.free hlocked
  | true =>
      obtain ⟨c, hc, hlock⟩ := h.locked_iff.mp hlocked
      exact (Phase.explains_iff (hnone c hc)).mp (h.held c hc hlock)

theorem sound_start (name : String) (initial : α) (visits : List (Interrupts × List (Visit α))) :
    Sound initial (Contention.start (.named name initial) visits).shared
      (Contention.start (.named name initial) visits).contexts := by
  have hidle : ∀ c ∈ (Contention.start (.named name initial) visits).contexts,
      ¬ c.phase.hasLock = true := by
    intro c hc
    obtain ⟨own, -, rfl⟩ := List.mem_map.mp hc
    exact Bool.false_ne_true
  exact ⟨Multiset.countP_eq_zero.mpr hidle, fun _ => rfl, fun c hc hlock =>
    absurd hlock (hidle c hc)⟩

/-- However contexts and their visits are interleaved, the lock excludes, and the value is that
of the sections one after another in the order in which their guards were made. -/
theorem visits_exclude_each_other (name : String) (initial : α)
    (visits : List (Interrupts × List (Visit α))) (schedule : List Nat) :
    Contention.Excludes initial visits
      ((Contention.start (.named name initial) visits).run schedule) := by
  have hsound := (preserves_sound initial).run (sound_start name initial visits) schedule
  have hfates := (preserves_fates _).run (s := Contention.start (.named name initial) visits) rfl
    schedule
  rw [Contention.run]
  generalize Interleaving.run Context.step _ schedule = s at hsound hfates ⊢
  refine ⟨?_, ?_, ?_, hsound.value_eq, ?_, ?_⟩
  · have hmono := Interleaving.countP_mono
      (p := fun c : Context α => c.phase.hasGuard) (q := fun c => c.phase.hasLock)
      (fun c hguard => Phase.hasLock_iff.mpr (.inl hguard)) s.contexts
    simp only [hsound.holders, Multiset.coe_countP, Bool.decide_eq_true] at hmono
    exact Nat.le_trans hmono (Bool.toNat_le _)
  · rw [hsound.locked_iff]
    exact exists_congr fun c => and_congr_right fun _ => Phase.hasLock_iff
  · intro hlocked c _ hlock
    exact (c.change_step s.shared).hasLock_eq_false hlocked hlock
  · intro c hc rest hrest
    have hvalue := hsound.held c hc (by rw [hrest]; rfl)
    rw [hrest] at hvalue
    exact hvalue
  · have hstart : (Contention.start (.named name initial) visits).contexts.flatMap Context.ahead =
        visits.flatMap fun own => own.2.map Visit.work := by
      rw [Contention.start, List.flatMap_map]
      rfl
    rw [Multiset.coe_bind, Multiset.coe_bind, hstart] at hfates
    exact Multiset.coe_eq_coe.mp hfates

/-- One context is under the lock with its interrupts masked when the two others come. The
second of them gives up, and the first gets the lock after it. -/
example :
    let visits : List (Interrupts × List (Visit Nat)) :=
      [(⟨true⟩, [⟨.lockIrq, .ofFunction (· + 1)⟩]), (⟨true⟩, [⟨.lock, .ofFunction (· * 3)⟩]),
        (⟨true⟩, [⟨.tryLockFor 1, .ofFunction (· * 5)⟩])]
    let s := (Contention.start (.named "shared" 1) visits).run
      [0, 0, 0, 0, 1, 1, 1, 2, 2, 2, 2, 0, 0, 0, 0, 1, 1, 1, 1, 1, 1]
    s.shared.lock = ⟨"shared", false, 1, 6⟩ ∧ s.shared.entered.length = 2 ∧
      s.shared.declined.length = 1 ∧
      s.contexts.map Context.interrupts = [⟨true⟩, ⟨true⟩, ⟨true⟩] := by
  decide

end SpinLock

end KernelMemory
