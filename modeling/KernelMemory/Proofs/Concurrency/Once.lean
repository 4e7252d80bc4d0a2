import KernelMemory.Concurrency.Initialization
import KernelMemory.Proofs.Concurrency.Interleaving
import Mathlib.Algebra.BigOperators.Group.Multiset.Basic

/-!
# Cells that are written once

Of the contexts that call a cell one at most is between a claim that succeeded and the
publication, and there is one exactly while the cell is being filled. This is a matter of
counting, and so is everything else that can be said of the order of events: the cell has been
written as often as there are contexts that have yet to publish what they wrote, plus one if it
has been published. Both cannot be, so there is one write at most, and before it there is
neither.

Once the value is there it is never another one, so what a call has been told of it stays true.
-/

namespace KernelMemory

namespace WriteOnce

variable {α : Type}

/-! ## Calls and the cell -/

/-- The call brings the value that it wants in the cell. -/
inductive Call.Offers : Call α → α → Prop
  | set (value : α) : Offers (.set value) value
  | getOrInit (value : α) : Offers (.getOrInit value) value

/-- A call can be at this point, with the cell as it is. -/
inductive Suits (c : WriteOnce α) : Call α → Phase α → Prop
  | peeking : Suits c .get .peeking
  | offering (value : α) : Suits c (.set value) (.offering value)
  | looking (value : α) : Suits c (.getOrInit value) (.looking value)
  | claiming (value : α) : Suits c (.getOrInit value) (.claiming value)
  | initializing (value : α) : Suits c (.getOrInit value) (.initializing value)
  | storing (value : α) : Suits c (.set value) (.writing value false)
  | filling (value : α) : Suits c (.getOrInit value) (.writing value true)
  | stored (value : α) (h : c.content = some value) : Suits c (.set value) (.publishing false)
  | filled (value : α) (h : c.content = some value) : Suits c (.getOrInit value) (.publishing true)
  | waiting (value : α) : Suits c (.getOrInit value) .waiting
  | getting (h : c.isReady = true) : Suits c .get .reading
  | reading (value : α) (h : c.isReady = true) : Suits c (.getOrInit value) .reading

/-- A call has a right to this outcome, with the cell as it is. -/
inductive Answers (c : WriteOnce α) : Call α → Outcome α → Prop
  | absent : Answers c .get .absent
  | got (value : α) (h : c.content = some value) : Answers c .get (.found (some value))
  | stored (value : α) (h : c.content = some value) : Answers c (.set value) .stored
  | rejected (value : α) : Answers c (.set value) (.rejected value)
  | found (offered value : α) (h : c.content = some value) :
      Answers c (.getOrInit offered) (.found (some value))

/-- What has been written or published stays so. -/
structure Lasts (c c' : WriteOnce α) : Prop where
  content : ∀ value, c.content = some value → c'.content = some value
  ready : c.isReady = true → c'.isReady = true

namespace Lasts

variable {c c' : WriteOnce α} {call : Call α}

theorem refl (c : WriteOnce α) : c.Lasts c :=
  ⟨fun _ h => h, fun h => h⟩

theorem suits (h : c.Lasts c') {phase : Phase α} (hs : c.Suits call phase) :
    c'.Suits call phase := by
  cases hs with
  | stored value hv => exact .stored value (h.content value hv)
  | filled value hv => exact .filled value (h.content value hv)
  | getting hr => exact .getting (h.ready hr)
  | reading value hr => exact .reading value (h.ready hr)
  | _ => constructor

theorem answers (h : c.Lasts c') {outcome : Outcome α} (ha : c.Answers call outcome) :
    c'.Answers call outcome := by
  cases ha with
  | got value hv => exact .got value (h.content value hv)
  | stored value hv => exact .stored value (h.content value hv)
  | found offered value hv => exact .found offered value (h.content value hv)
  | _ => constructor

end Lasts

/-! ## Points of a call -/

namespace Phase

/-- Between a claim that succeeded and the publication. -/
def fills : Phase α → Bool
  | initializing _ | writing .. | publishing _ => true
  | _ => false

/-- The value is written and not yet published. -/
def hasWritten : Phase α → Bool
  | publishing _ => true
  | _ => false

/-- The initializer has run and its value is not yet published. -/
def hasRun : Phase α → Bool
  | writing _ reads | publishing reads => reads
  | _ => false

theorem fills_of_hasWritten {phase : Phase α} (h : phase.hasWritten = true) :
    phase.fills = true := by
  cases phase with
  | publishing => rfl
  | _ => cases h

theorem fills_of_hasRun {phase : Phase α} (h : phase.hasRun = true) : phase.fills = true := by
  cases phase with
  | writing => rfl
  | publishing => rfl
  | _ => cases h

end Phase

def Outcome.isStored : Outcome α → Bool
  | .stored => true
  | _ => false

namespace Progress

/-- The call goes on at such a point. -/
def during (p : Phase α → Bool) : Progress α → Bool
  | next phase => p phase
  | done _ => false

def stores : Progress α → Bool
  | next _ => false
  | done outcome => outcome.isStored

/-- The call can go on like this, or end like this. -/
def Suits (c : WriteOnce α) (call : Call α) : Progress α → Prop
  | next phase => c.Suits call phase
  | done outcome => c.Answers call outcome

end Progress

/-! ## Steps of a call -/

/-- What a step of a call adds up to. Only a step from a point where the cell is claimed can
write it, publish it or run the initializer. -/
structure Balance (c : WriteOnce α) (phase : Phase α) (progress : Progress α) (c' : WriteOnce α) :
    Prop where
  filling : (progress.during Phase.fills).toNat + (c.fill == .filling).toNat =
    phase.fills.toNat + (c'.fill == .filling).toNat
  written : (progress.during Phase.hasWritten).toNat + c'.isReady.toNat =
    phase.hasWritten.toNat + c.isReady.toNat + phase.writes.toNat
  content : c'.content.isSome.toNat = c.content.isSome.toNat + phase.writes.toNat
  inits : phase.hasRun.toNat + c.isReady.toNat + phase.runsInit.toNat ≤
    (progress.during Phase.hasRun).toNat + c'.isReady.toNat
  stored : progress.stores.toNat + c.isReady.toNat ≤ c'.isReady.toNat
  lasts : c.Lasts c'

namespace Phase

variable {c : WriteOnce α} {phase : Phase α} {call : Call α}

theorem balance_step (hfills : phase.fills = true → c.fill = .filling)
    (hblank : phase.writes = true → c.content = none) :
    Balance c phase (phase.step c).1 (phase.step c).2 := by
  obtain ⟨fill, content⟩ := c
  cases phase with
  | peeking =>
      cases fill <;>
        exact ⟨rfl, rfl, rfl, Nat.le_refl _, Nat.le_refl _, .refl _⟩
  | offering value =>
      cases fill with
      | empty => exact ⟨rfl, rfl, rfl, Nat.le_refl _, Nat.le_refl _, fun _ h => h, nofun⟩
      | _ => exact ⟨rfl, rfl, rfl, Nat.le_refl _, Nat.le_refl _, .refl _⟩
  | looking value =>
      cases fill <;>
        exact ⟨rfl, rfl, rfl, Nat.le_refl _, Nat.le_refl _, .refl _⟩
  | claiming value =>
      cases fill with
      | empty => exact ⟨rfl, rfl, rfl, Nat.le_refl _, Nat.le_refl _, fun _ h => h, nofun⟩
      | _ => exact ⟨rfl, rfl, rfl, Nat.le_refl _, Nat.le_refl _, .refl _⟩
  | initializing value =>
      obtain rfl : fill = .filling := hfills rfl
      exact ⟨rfl, rfl, rfl, Nat.le_refl _, Nat.le_refl _, .refl _⟩
  | writing value reads =>
      obtain rfl : fill = .filling := hfills rfl
      obtain rfl : content = none := hblank rfl
      exact ⟨rfl, rfl, rfl, Nat.le_refl _, Nat.le_refl _, nofun, nofun⟩
  | publishing reads =>
      obtain rfl : fill = .filling := hfills rfl
      cases reads with
      | false => exact ⟨rfl, rfl, rfl, Nat.zero_le _, Nat.le_refl _, fun _ h => h, nofun⟩
      | true => exact ⟨rfl, rfl, rfl, Nat.le_refl _, Nat.zero_le _, fun _ h => h, nofun⟩
  | waiting =>
      cases fill <;>
        exact ⟨rfl, rfl, rfl, Nat.le_refl _, Nat.le_refl _, .refl _⟩
  | reading =>
      cases fill <;>
        exact ⟨rfl, rfl, rfl, Nat.le_refl _, Nat.le_refl _, .refl _⟩

theorem suits_step (hs : c.Suits call phase)
    (hready : c.isReady = true → ∃ value, c.content = some value) :
    (phase.step c).1.Suits (phase.step c).2 call := by
  cases hs with
  | peeking =>
      simp only [step]
      cases hc : c.isReady with
      | false => exact .absent
      | true => exact .getting hc
  | offering value =>
      obtain ⟨fill, content⟩ := c
      cases fill with
      | empty => exact .storing value
      | filling => exact .rejected value
      | ready => exact .rejected value
  | looking value =>
      simp only [step]
      cases hc : c.isReady with
      | false => exact .claiming value
      | true => exact .reading value hc
  | claiming value =>
      obtain ⟨fill, content⟩ := c
      cases fill with
      | empty => exact .initializing value
      | filling => exact .waiting value
      | ready => exact .waiting value
  | initializing value => exact .filling value
  | storing value => exact .stored value rfl
  | filling value => exact .filled value rfl
  | stored value h => exact .stored value h
  | filled value h => exact .reading value rfl
  | waiting value =>
      simp only [step]
      cases hc : c.isReady with
      | false => exact .waiting value
      | true => exact .reading value hc
  | getting h =>
      obtain ⟨value, hvalue⟩ := hready h
      simp only [step, hvalue]
      exact .got value hvalue
  | reading value h =>
      obtain ⟨found, hfound⟩ := hready h
      simp only [step, hfound]
      exact .found value found hfound

/-- What is in the cell after a step was there before, or the call brought it. -/
theorem offers_of_content_step (hs : c.Suits call phase) {value : α}
    (h : (phase.step c).2.content = some value) :
    c.content = some value ∨ call.Offers value := by
  cases hs with
  | storing written =>
      obtain rfl := Option.some.inj h
      exact .inr (.set written)
  | filling written =>
      obtain rfl := Option.some.inj h
      exact .inr (.getOrInit written)
  | offering offered =>
      obtain ⟨fill, content⟩ := c
      cases fill <;> exact .inl h
  | claiming offered =>
      obtain ⟨fill, content⟩ := c
      cases fill <;> exact .inl h
  | _ => exact .inl h

end Phase

/-! ## Contexts -/

namespace Context

variable {x : Context α} {call : Call α} {phase : Phase α}

/-- The context is in a call, at such a point of it. -/
def during (p : Phase α → Bool) (x : Context α) : Bool :=
  x.active.any fun active => p active.2

/-- How many calls have stored a value. -/
def stores (x : Context α) : Nat :=
  x.answers.countP (·.2.isStored)

/-- The calls of a context from the first to the last. -/
def program (x : Context α) : List (Call α) :=
  x.answers.map Prod.fst ++ x.active.toList.map Prod.fst ++ x.calls

theorem program_step (x : Context α) (r : Record α) : (x.step r).1.program = x.program := by
  obtain ⟨active, calls, answers⟩ := x
  cases active with
  | none => cases calls <;> simp [step, program]
  | some active =>
      obtain ⟨call, phase⟩ := active
      simp only [step]
      cases (phase.step r.cell).1 <;> simp [proceed, program]

theorem during_of_active (h : x.active = some (call, phase)) (p : Phase α → Bool) :
    x.during p = p phase := by
  rw [during, h]
  rfl

theorem during_proceed (x : Context α) (call : Call α) (progress : Progress α)
    (p : Phase α → Bool) : (x.proceed call progress).during p = progress.during p := by
  cases progress <;> rfl

theorem stores_proceed (x : Context α) (call : Call α) (progress : Progress α) :
    (x.proceed call progress).stores = x.stores + progress.stores.toNat := by
  cases progress with
  | next phase => rfl
  | done outcome =>
      simp only [proceed, stores, List.countP_append, List.countP_singleton, Progress.stores]
      cases outcome.isStored <;> rfl

/-- A step begins a call, goes on with one, or is none. -/
theorem step_cases (x : Context α) (r : Record α) :
    x.step r = (x, r) ∨
      (∃ call calls, x.active = none ∧ x.calls = call :: calls ∧
        x.step r = ({ x with active := some (call, .ofCall call), calls }, r)) ∨
      ∃ call phase, x.active = some (call, phase) ∧
        x.step r = (x.proceed call (phase.step r.cell).1,
          ⟨(phase.step r.cell).2, r.inits + phase.runsInit.toNat,
            r.writes + phase.writes.toNat⟩) := by
  obtain ⟨active, calls, answers⟩ := x
  cases active with
  | none =>
      cases calls with
      | nil => exact .inl rfl
      | cons call calls => exact .inr (.inl ⟨call, calls, rfl, rfl, rfl⟩)
  | some active => exact .inr (.inr ⟨active.1, active.2, rfl, rfl⟩)

end Context

/-! ## Counting -/

/-- The claim is held by one context while the cell is being filled. Writes and runs of the
initializer are counted until they are published, and one that is published counts for good. -/
structure Counted (r : Record α) (contexts : Multiset (Context α)) : Prop where
  filling : contexts.countP (·.during Phase.fills) = (r.cell.fill == .filling).toNat
  written : r.writes = contexts.countP (·.during Phase.hasWritten) + r.cell.isReady.toNat
  content : r.cell.content.isSome.toNat = r.writes
  inits : r.inits ≤ contexts.countP (·.during Phase.hasRun) + r.cell.isReady.toNat
  stored : (contexts.map Context.stores).sum ≤ r.cell.isReady.toNat

/-- A cell is not being filled and ready at once. -/
theorem filling_add_ready_le (c : WriteOnce α) :
    (c.fill == .filling).toNat + c.isReady.toNat ≤ 1 := by
  unfold isReady
  cases c.fill <;> decide

theorem countP_cons_during (p : Phase α → Bool) (x : Context α) (others : Multiset (Context α)) :
    (x ::ₘ others).countP (·.during p) = others.countP (·.during p) + (x.during p).toNat := by
  rw [Multiset.countP_cons]
  cases x.during p <;> rfl

theorem countP_during_mono {p q : Phase α → Bool} (h : ∀ phase, p phase = true → q phase = true)
    (contexts : Multiset (Context α)) :
    contexts.countP (·.during p) ≤ contexts.countP (·.during q) := by
  refine Interleaving.countP_mono (fun x hx => ?_) contexts
  unfold Context.during at hx ⊢
  cases hactive : x.active with
  | none => rw [hactive] at hx; cases hx
  | some active => rw [hactive] at hx; exact h active.2 hx

namespace Counted

variable {r : Record α} {contexts others : Multiset (Context α)} {x : Context α}
  {call : Call α} {phase : Phase α}

theorem hasWritten_le (contexts : Multiset (Context α)) :
    contexts.countP (·.during Phase.hasWritten) ≤ contexts.countP (·.during Phase.fills) :=
  countP_during_mono (fun _ => Phase.fills_of_hasWritten) contexts

theorem hasRun_le (contexts : Multiset (Context α)) :
    contexts.countP (·.during Phase.hasRun) ≤ contexts.countP (·.during Phase.fills) :=
  countP_during_mono (fun _ => Phase.fills_of_hasRun) contexts

theorem writes_le (h : Counted r contexts) : r.writes ≤ 1 := by
  have hwritten := h.written
  have hfilling := h.filling
  have hle := hasWritten_le contexts
  have hone := filling_add_ready_le r.cell
  omega

theorem inits_le (h : Counted r contexts) : r.inits ≤ 1 := by
  have hinits := h.inits
  have hfilling := h.filling
  have hle := hasRun_le contexts
  have hone := filling_add_ready_le r.cell
  omega

/-- A cell that is ready has been written. -/
theorem exists_content (h : Counted r contexts) (hready : r.cell.isReady = true) :
    ∃ value, r.cell.content = some value := by
  have hwritten := h.written
  have hcontent := h.content
  rw [hready] at hwritten
  cases hcell : r.cell.content with
  | none =>
      rw [hcell] at hcontent
      exact absurd (hcontent.trans hwritten) (Nat.succ_ne_zero _).symm
  | some value => exact ⟨value, rfl⟩

/-- A context that has claimed the cell finds it as it left it. -/
theorem claimed (h : Counted r (x ::ₘ others)) (hactive : x.active = some (call, phase)) :
    (phase.fills = true → r.cell.fill = .filling) ∧
      (phase.writes = true → r.cell.content = none) := by
  have hfilling := h.filling
  have hwritten := h.written
  have hcontent := h.content
  have hle := hasWritten_le others
  have hone := filling_add_ready_le r.cell
  rw [countP_cons_during, Context.during_of_active hactive] at hfilling hwritten
  constructor
  · intro hfills
    rw [hfills] at hfilling
    by_contra hfill
    rw [beq_eq_false_iff_ne.mpr hfill] at hfilling
    exact absurd hfilling (Nat.succ_ne_zero _)
  · intro hwrites
    cases phase with
    | writing value reads =>
        -- the one claim is taken, so no other context has written, and nothing is published
        simp only [Phase.fills, Phase.hasWritten, Bool.toNat_true, Bool.toNat_false]
          at hfilling hwritten
        have hblank : r.cell.content.isSome.toNat = 0 := by omega
        cases hcell : r.cell.content with
        | none => rfl
        | some value => rw [hcell] at hblank; cases hblank
    | _ => cases hwrites

/-- The sums of a step are those of its context, since the others stay where they are. -/
theorem proceed (h : Counted r (x ::ₘ others)) (hactive : x.active = some (call, phase))
    {progress : Progress α} {cell : WriteOnce α} (hb : Balance r.cell phase progress cell) :
    Counted ⟨cell, r.inits + phase.runsInit.toNat, r.writes + phase.writes.toNat⟩
      (x.proceed call progress ::ₘ others) := by
  obtain ⟨hfilling, hwritten, hcontent, hinits, hstored⟩ := h
  have hone := filling_add_ready_le r.cell
  rw [countP_cons_during, Context.during_of_active hactive] at hfilling hwritten hinits
  rw [Multiset.map_cons, Multiset.sum_cons] at hstored
  have hbfilling := hb.filling
  have hbwritten := hb.written
  have hbcontent := hb.content
  have hbinits := hb.inits
  have hbstored := hb.stored
  constructor
  · rw [countP_cons_during, Context.during_proceed]
    simp only
    omega
  · rw [countP_cons_during, Context.during_proceed]
    simp only
    omega
  · simp only
    omega
  · rw [countP_cons_during, Context.during_proceed]
    simp only
    omega
  · rw [Multiset.map_cons, Multiset.sum_cons, Context.stores_proceed]
    simp only
    omega

/-- A call that begins has done nothing yet. -/
theorem begin (h : Counted r (x ::ₘ others)) (hidle : x.active = none) (call : Call α)
    (calls : List (Call α)) :
    Counted r ({ x with active := some (call, .ofCall call), calls } ::ₘ others) := by
  have hduring : ∀ p : Phase α → Bool, x.during p = false := fun p => by
    rw [Context.during, hidle]
    rfl
  have hbegun : ∀ p : Phase α → Bool, (∀ phase, p phase = true → phase.fills = true) →
      Context.during p { x with active := some (call, .ofCall call), calls } = false := by
    intro p hp
    refine Bool.eq_false_iff.mpr fun hphase => ?_
    cases call <;> cases hp _ hphase
  obtain ⟨hfilling, hwritten, hcontent, hinits, hstored⟩ := h
  simp only [countP_cons_during, hduring] at hfilling hwritten hinits
  refine ⟨?_, ?_, hcontent, ?_, ?_⟩
  · rw [countP_cons_during, hbegun _ fun _ h => h]
    exact hfilling
  · rw [countP_cons_during, hbegun _ fun _ => Phase.fills_of_hasWritten]
    exact hwritten
  · rw [countP_cons_during, hbegun _ fun _ => Phase.fills_of_hasRun]
    exact hinits
  · rw [Multiset.map_cons] at hstored ⊢
    exact hstored

end Counted

/-! ## What is known of the cell -/

/-- What is known of the cell suits the call that a context is in and those that it has made. -/
structure Context.Informed (c : WriteOnce α) (x : Context α) : Prop where
  active : ∀ call phase, x.active = some (call, phase) → c.Suits call phase
  answers : ∀ answer ∈ x.answers, c.Answers answer.1 answer.2

namespace Context.Informed

variable {c c' : WriteOnce α} {x : Context α} {call : Call α}

theorem lasts (h : x.Informed c) (hc : c.Lasts c') : x.Informed c' where
  active call phase hactive := hc.suits (h.active call phase hactive)
  answers answer ha := hc.answers (h.answers answer ha)

theorem begin (h : x.Informed c) (call : Call α) (calls : List (Call α)) :
    Informed c { x with active := some (call, .ofCall call), calls } where
  active call' phase hactive := by
    obtain ⟨rfl, rfl⟩ := Prod.mk.inj (Option.some.inj hactive)
    cases call <;> constructor
  answers := h.answers

theorem proceed (h : x.Informed c) {progress : Progress α} (hp : progress.Suits c call) :
    (x.proceed call progress).Informed c := by
  cases progress with
  | next phase =>
      refine ⟨fun call' phase' hactive => ?_, h.answers⟩
      obtain ⟨rfl, rfl⟩ := Prod.mk.inj (Option.some.inj hactive)
      exact hp
  | done outcome =>
      refine ⟨fun _ _ hactive => (nomatch hactive), fun answer ha => ?_⟩
      rcases List.mem_append.mp ha with ha | ha
      · exact h.answers answer ha
      · obtain rfl := List.mem_singleton.mp ha
        exact hp

end Context.Informed

/-- Everything that is kept: the counts, what contexts know, and that the contexts make the
calls that they are to make, one of which has brought what is in the cell. -/
structure Sound (programs : List (List (Call α))) (r : Record α)
    (contexts : Multiset (Context α)) : Prop where
  counted : Counted r contexts
  informed : ∀ x ∈ contexts, x.Informed r.cell
  own : ∀ x ∈ contexts, x.program ∈ programs
  offered : ∀ value, r.cell.content = some value →
    ∃ calls ∈ programs, ∃ call ∈ calls, call.Offers value

theorem preserves_sound (programs : List (List (Call α))) :
    Interleaving.Preserves Context.step (Sound programs) := by
  intro r x others h
  have hx : x ∈ x ::ₘ others := Multiset.mem_cons_self x others
  have hprogram := x.program_step r
  rcases x.step_cases r with
    hout | ⟨call, calls, hidle, hcalls, hout⟩ | ⟨call, phase, hactive, hout⟩
  · rw [hout]
    exact h
  · rw [hout] at hprogram ⊢
    refine ⟨h.counted.begin hidle call calls, ?_, ?_, h.offered⟩
    · refine Multiset.forall_mem_cons.mpr ⟨(h.informed x hx).begin call calls, ?_⟩
      exact fun y hy => h.informed y (Multiset.mem_cons_of_mem hy)
    · refine Multiset.forall_mem_cons.mpr ⟨?_, ?_⟩
      · rw [hprogram]
        exact h.own x hx
      · exact fun y hy => h.own y (Multiset.mem_cons_of_mem hy)
  · rw [hout] at hprogram ⊢
    obtain ⟨hfills, hblank⟩ := h.counted.claimed hactive
    have hbalance := phase.balance_step hfills hblank
    have hsuits := (h.informed x hx).active call phase hactive
    refine ⟨h.counted.proceed hactive hbalance, ?_, ?_, ?_⟩
    · refine Multiset.forall_mem_cons.mpr ⟨?_, ?_⟩
      · refine ((h.informed x hx).lasts hbalance.lasts).proceed ?_
        exact Phase.suits_step hsuits h.counted.exists_content
      · exact fun y hy => (h.informed y (Multiset.mem_cons_of_mem hy)).lasts hbalance.lasts
    · refine Multiset.forall_mem_cons.mpr ⟨?_, ?_⟩
      · rw [hprogram]
        exact h.own x hx
      · exact fun y hy => h.own y (Multiset.mem_cons_of_mem hy)
    · intro value hvalue
      rcases Phase.offers_of_content_step hsuits hvalue with hbefore | hoffers
      · exact h.offered value hbefore
      · refine ⟨x.program, h.own x hx, call, ?_, hoffers⟩
        simp [Context.program, hactive]

/-! ## Every interleaving -/

/-- The value is written once at most, and one initializer at most is run. A context that is
about to read finds a value. Every call that has been made has got what it has a right to with
the cell as it is now: what it has found or stored is what is still there. That value was
brought by one of the calls, and one call at most was told that it has stored its own. The
contexts make their calls in order and leave none out. -/
structure Race.WrittenOnce (programs : List (List (Call α))) (r : Race α) : Prop where
  writes : r.writes ≤ 1
  inits : r.inits ≤ 1
  readers : ∀ x ∈ r.contexts, ∀ call, x.active = some (call, .reading) →
    ∃ value, r.cell.content = some value
  answers : ∀ answer ∈ r.answers, r.cell.Answers answer.1 answer.2
  stored : r.answers.countP (·.2.isStored) ≤ 1
  offered : ∀ value, r.cell.content = some value →
    ∃ calls ∈ programs, ∃ call ∈ calls, call.Offers value
  programs : r.contexts.map Context.program = programs

theorem sound_start (programs : List (List (Call α))) :
    Sound programs (Race.start empty programs).shared (Race.start empty programs).contexts := by
  have hnew : ∀ x ∈ (Race.start empty programs).contexts, ∃ calls ∈ programs,
      x = Context.ofCalls calls := by
    intro x hx
    obtain ⟨calls, hcalls, rfl⟩ := List.mem_map.mp hx
    exact ⟨calls, hcalls, rfl⟩
  have hnone : ∀ p : Phase α → Bool,
      ((Race.start empty programs).contexts : Multiset (Context α)).countP (·.during p) = 0 := by
    refine fun p => Multiset.countP_eq_zero.mpr fun x hx => ?_
    obtain ⟨calls, -, rfl⟩ := hnew x hx
    exact Bool.false_ne_true
  refine ⟨⟨hnone _, ?_, rfl, Nat.zero_le _, ?_⟩, ?_, ?_, nofun⟩
  · rw [hnone]
    rfl
  · refine Nat.le_of_eq (Multiset.sum_eq_zero fun count hcount => ?_)
    obtain ⟨x, hx, rfl⟩ := Multiset.mem_map.mp hcount
    obtain ⟨calls, -, rfl⟩ := hnew x hx
    rfl
  · intro x hx
    obtain ⟨calls, -, rfl⟩ := hnew x hx
    exact ⟨nofun, nofun⟩
  · intro x hx
    obtain ⟨calls, hcalls, rfl⟩ := hnew x hx
    exact hcalls

/-- However contexts and their calls are interleaved, an empty cell is written once. -/
theorem races_write_once (programs : List (List (Call α))) (schedule : List Nat) :
    Race.WrittenOnce programs ((Race.start empty programs).run schedule) := by
  have hsound := (preserves_sound programs).run (sound_start programs) schedule
  have hprograms := Interleaving.map_contexts_run Context.program_step
    (Race.start empty programs) schedule
  rw [Race.run]
  generalize Interleaving.run Context.step _ schedule = r at hsound hprograms ⊢
  refine ⟨hsound.counted.writes_le, hsound.counted.inits_le, ?_, ?_, ?_, hsound.offered, ?_⟩
  · intro x hx call hactive
    refine hsound.counted.exists_content ?_
    cases (hsound.informed x hx).active call .reading hactive with
    | getting hready => exact hready
    | reading value hready => exact hready
  · intro answer ha
    obtain ⟨x, hx, ha⟩ := List.mem_flatMap.mp ha
    exact (hsound.informed x hx).answers answer ha
  · have hstored := hsound.counted.stored
    have hone := filling_add_ready_le r.shared.cell
    rw [Multiset.map_coe, Multiset.sum_coe] at hstored
    rw [Race.answers, List.countP_flatMap]
    exact Nat.le_trans hstored (by omega)
  · rw [hprograms, Race.start, List.map_map]
    exact List.map_id programs

/-- A context claims the cell and is passed over while others come: one waits for the value,
one is refused, and one finds nothing yet. -/
example :
    let programs : List (List (Call Nat)) := [[.set 1, .get], [.getOrInit 2], [.set 3, .get]]
    let r := (Race.start empty programs).run
      [0, 0, 1, 1, 1, 1, 2, 2, 2, 2, 0, 0, 1, 1, 0, 0, 0]
    r.cell = ⟨.ready, some 1⟩ ∧ r.answers = [(.set 1, .stored), (.get, .found (some 1)),
      (.getOrInit 2, .found (some 1)), (.set 3, .rejected 3), (.get, .absent)] := by
  decide

end WriteOnce

end KernelMemory
