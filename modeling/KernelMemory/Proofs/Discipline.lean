import KernelMemory.Proofs.Outcome

/-!
# What an operation never does

Much of what is said of an operation does not depend on what it computes: that it keeps an
invariant, that it does not change the state, that it does not refuse, or that its refusals
leave the state as it was. Such a property of a `do` block follows from those of its lines,
so these predicates are proved along the text of an operation, whatever the state is.
-/

namespace KernelMemory

section Exhaustion

variable {ε α : Type}

@[simp] theorem Verdict.not_isExhaustion_ok (a : α) :
    ¬ (.ok a : Verdict ε α).IsExhaustion := fun ⟨_, h⟩ => nomatch h

@[simp] theorem Verdict.not_isExhaustion_error (e : ε) :
    ¬ (.error e : Verdict ε α).IsExhaustion := fun ⟨_, h⟩ => nomatch h

theorem Verdict.isExhaustion_fault_iff {f : Fault} :
    (.fault f : Verdict ε α).IsExhaustion ↔ ∃ slots, f = .slotsExhausted slots := by
  simp [IsExhaustion]

end Exhaustion

namespace Operation

variable {σ τ ε δ α β : Type}

/-! ## Invariants -/

/-- The operation keeps the invariant, unless slots run out in the middle of it. -/
def Keeps (I : σ → Prop) (op : Operation σ ε α) : Prop :=
  ∀ s, I s → ¬ (op.outcome s).1.IsExhaustion → I (op.outcome s).2

namespace Keeps

variable {I : σ → Prop} {J : τ → Prop} {op : Operation σ ε α} {next : α → Operation σ ε β}

theorem pure (a : α) : Keeps I (Pure.pure a : Operation σ ε α) := fun _ hs _ => hs

theorem get : Keeps I (Operation.get : Operation σ ε σ) := fun _ hs _ => hs

theorem note (level : Level) (text : String) :
    Keeps I (Operation.note level text : Operation σ ε Unit) := fun _ hs _ => hs

theorem refuse (e : ε) : Keeps I (Operation.refuse e : Operation σ ε α) := fun _ hs _ => hs

theorem stop (f : Fault) : Keeps I (Operation.stop f : Operation σ ε α) := fun _ hs _ => hs

theorem ofExcept (answer : Except ε α) :
    Keeps I (Operation.ofExcept answer : Operation σ ε α) := by
  cases answer with
  | error e => exact refuse e
  | ok a => exact pure a

theorem bind (h : Keeps I op) (hnext : ∀ a, Keeps I (next a)) : Keeps I (op >>= next) := by
  intro s hs hslots
  have hop := h s hs
  rw [outcome_bind] at hslots ⊢
  rcases hout : op.outcome s with ⟨verdict, s'⟩
  rw [hout] at hop hslots
  cases verdict with
  | ok a => exact hnext a s' (hop (Verdict.not_isExhaustion_ok a)) hslots
  | error e => exact hop (Verdict.not_isExhaustion_error e)
  | fault f =>
      rw [Verdict.isExhaustion_fault_iff] at hop hslots
      exact hop hslots

/-- What is done with the state that was read may count on the invariant for it. -/
theorem get_bind {next : σ → Operation σ ε β}
    (h : ∀ s, I s → ¬ ((next s).outcome s).1.IsExhaustion → I ((next s).outcome s).2) :
    Keeps I (Operation.get >>= next) := h

/-- What is done with a computed answer may count on how it was computed. -/
theorem ofExcept_bind {answer : Except ε α} (h : ∀ a, answer = .ok a → Keeps I (next a)) :
    Keeps I (Operation.ofExcept answer >>= next) := by
  cases answer with
  | ok a => exact h a rfl
  | error e => exact refuse e

theorem mapError (f : ε → δ) (h : Keeps I op) : Keeps I (op.mapError f) := by
  intro s hs hslots
  have hop := h s hs
  rw [outcome_mapError] at hslots ⊢
  rcases hout : op.outcome s with ⟨verdict, s'⟩
  rw [hout] at hop hslots
  cases verdict with
  | ok a => exact hop (Verdict.not_isExhaustion_ok a)
  | error e => exact hop (Verdict.not_isExhaustion_error e)
  | fault x =>
      rw [Verdict.isExhaustion_fault_iff] at hop hslots
      exact hop hslots

theorem attempt (h : Keeps I op) : Keeps I (op.attempt : Operation σ δ (Except ε α)) := by
  intro s hs hslots
  have hop := h s hs
  rw [outcome_attempt] at hslots ⊢
  rcases hout : op.outcome s with ⟨verdict, s'⟩
  rw [hout] at hop hslots
  cases verdict with
  | ok a => exact hop (Verdict.not_isExhaustion_ok a)
  | error e => exact hop (Verdict.not_isExhaustion_error e)
  | fault x =>
      rw [Verdict.isExhaustion_fault_iff] at hop hslots
      exact hop hslots

theorem within {view : σ → τ} {update : σ → τ → σ} {op : Operation τ ε α}
    (hview : ∀ s, I s → J (view s)) (hupdate : ∀ s t, I s → J t → I (update s t))
    (h : Keeps J op) : Keeps I (op.within view update) := by
  intro s hs hslots
  rw [outcome_within] at hslots ⊢
  exact hupdate s _ hs (h (view s) (hview s hs) hslots)

theorem forM {step : α → Operation σ ε Unit} (h : ∀ a, Keeps I (step a)) (l : List α) :
    Keeps I (l.forM step) := by
  induction l with
  | nil => exact pure ()
  | cons a l ih => exact (h a).bind fun _ => ih

end Keeps

/-! ## Parts that stay -/

/-- However the operation ends, a part of the state is as it was. -/
def Fixes (view : σ → τ) (op : Operation σ ε α) : Prop :=
  ∀ s, view (op.outcome s).2 = view s

namespace Fixes

variable {view : σ → τ} {op : Operation σ ε α} {next : α → Operation σ ε β}

theorem pure (a : α) : Fixes view (Pure.pure a : Operation σ ε α) := fun _ => rfl

theorem get : Fixes view (Operation.get : Operation σ ε σ) := fun _ => rfl

theorem modify {f : σ → σ} (h : ∀ s, view (f s) = view s) :
    Fixes view (Operation.modify f : Operation σ ε Unit) := h

theorem note (level : Level) (text : String) :
    Fixes view (Operation.note level text : Operation σ ε Unit) := fun _ => rfl

theorem refuse (e : ε) : Fixes view (Operation.refuse e : Operation σ ε α) := fun _ => rfl

theorem crash (f : Fault) : Fixes view (Operation.crash f : Operation σ ε α) := fun _ => rfl

theorem bind (h : Fixes view op) (hnext : ∀ a, Fixes view (next a)) :
    Fixes view (op >>= next) := by
  intro s
  have hop := h s
  rw [outcome_bind]
  rcases hout : op.outcome s with ⟨verdict, s'⟩
  rw [hout] at hop
  cases verdict with
  | ok a => exact (hnext a s').trans hop
  | error e => exact hop
  | fault f => exact hop

theorem mapError (f : ε → δ) (h : Fixes view op) : Fixes view (op.mapError f) := by
  intro s
  have hop := h s
  rw [outcome_mapError]
  rcases hout : op.outcome s with ⟨verdict, s'⟩
  rw [hout] at hop
  cases verdict <;> exact hop

theorem attempt (h : Fixes view op) :
    Fixes view (op.attempt : Operation σ δ (Except ε α)) := by
  intro s
  have hop := h s
  rw [outcome_attempt]
  rcases hout : op.outcome s with ⟨verdict, s'⟩
  rw [hout] at hop
  cases verdict <;> exact hop

end Fixes

/-! ## Answers -/

/-- Whatever the operation answers has the property. -/
def Yields (P : α → Prop) (op : Operation σ ε α) : Prop :=
  ∀ s a, (op.outcome s).1 = .ok a → P a

namespace Yields

variable {P : α → Prop} {Q : β → Prop} {op : Operation σ ε α} {next : α → Operation σ ε β}

theorem pure {a : α} (h : P a) : Yields P (Pure.pure a : Operation σ ε α) := by
  rintro s _ ⟨⟩
  exact h

theorem bind (h : Yields P op) (hnext : ∀ a, P a → Yields Q (next a)) :
    Yields Q (op >>= next) := by
  intro s b hb
  have hop := h s
  rw [outcome_bind] at hb
  rcases hout : op.outcome s with ⟨verdict, s'⟩
  rw [hout] at hop hb
  cases verdict with
  | ok a => exact hnext a (hop a rfl) s' b hb
  | error e => exact nomatch hb
  | fault f => exact nomatch hb

theorem ofExcept_bind {answer : Except ε α} (h : ∀ a, answer = .ok a → Yields Q (next a)) :
    Yields Q (Operation.ofExcept answer >>= next) := by
  cases answer with
  | ok a => exact h a rfl
  | error e => exact fun _ _ he => nomatch he

/-- Only the last line of a block answers for it. -/
theorem bind_last (op : Operation σ ε α) (hnext : ∀ a, Yields Q (next a)) :
    Yields Q (op >>= next) :=
  bind (P := fun _ => True) (fun _ _ _ => trivial) fun a _ => hnext a

theorem foldlM {step : α → β → Operation σ ε α} (hstep : ∀ a b, P a → Yields P (step a b))
    (l : List β) {a : α} (ha : P a) : Yields P (l.foldlM step a) := by
  induction l generalizing a with
  | nil => exact pure ha
  | cons b l ih =>
      rw [List.foldlM_cons]
      exact (hstep a b ha).bind fun a' ha' => ih ha'

/-- An operation that keeps an invariant builds a state that has it. -/
theorem build {I : τ → Prop} {op : Operation τ ε α} (h : Keeps I op) {t : τ} (ht : I t) :
    Yields (fun built => I built.2) (Operation.build t op : Operation σ ε (α × τ)) := by
  intro s built hbuilt
  have hop := h t ht
  rw [outcome_build] at hbuilt
  rcases hout : op.outcome t with ⟨verdict, t'⟩
  rw [hout] at hop hbuilt
  cases verdict with
  | ok a =>
      obtain rfl := Verdict.ok.inj hbuilt
      exact hop (Verdict.not_isExhaustion_ok a)
  | error e => exact nomatch hbuilt
  | fault x => exact nomatch hbuilt

end Yields

/-! ## Reading -/

/-- The operation leaves the state as it is. -/
def Reads (op : Operation σ ε α) : Prop :=
  ∀ s, (op.outcome s).2 = s

namespace Reads

variable {op : Operation σ ε α} {next : α → Operation σ ε β}

theorem pure (a : α) : Reads (Pure.pure a : Operation σ ε α) := fun _ => rfl

theorem get : Reads (Operation.get : Operation σ ε σ) := fun _ => rfl

theorem note (level : Level) (text : String) :
    Reads (Operation.note level text : Operation σ ε Unit) := fun _ => rfl

theorem refuse (e : ε) : Reads (Operation.refuse e : Operation σ ε α) := fun _ => rfl

theorem stop (f : Fault) : Reads (Operation.stop f : Operation σ ε α) := fun _ => rfl

theorem ofVerdict (v : Verdict ε α) : Reads (Operation.ofVerdict v : Operation σ ε α) := by
  cases v with
  | ok a => exact pure a
  | error e => exact refuse e
  | fault f => exact stop f

theorem ofExcept (answer : Except ε α) : Reads (Operation.ofExcept answer : Operation σ ε α) := by
  cases answer with
  | ok a => exact pure a
  | error e => exact refuse e

theorem bind (h : Reads op) (hnext : ∀ a, Reads (next a)) : Reads (op >>= next) := by
  intro s
  have hop := h s
  rw [outcome_bind]
  rcases hout : op.outcome s with ⟨verdict, s'⟩
  rw [hout] at hop
  cases verdict with
  | ok a => exact (hnext a s').trans hop
  | error e => exact hop
  | fault f => exact hop

theorem attempt (h : Reads op) : Reads (op.attempt : Operation σ δ (Except ε α)) := by
  intro s
  have hop := h s
  rw [outcome_attempt]
  rcases hout : op.outcome s with ⟨verdict, s'⟩
  rw [hout] at hop
  cases verdict <;> exact hop

end Reads

/-! ## Accepting -/

/-- The operation never refuses. -/
def Accepts (op : Operation σ ε α) : Prop :=
  ∀ s e, (op.outcome s).1 ≠ .error e

namespace Accepts

variable {op : Operation σ ε α} {next : α → Operation σ ε β}

theorem pure (a : α) : Accepts (Pure.pure a : Operation σ ε α) := fun _ _ h => nomatch h

theorem get : Accepts (Operation.get : Operation σ ε σ) := fun _ _ h => nomatch h

theorem modify (f : σ → σ) : Accepts (Operation.modify f : Operation σ ε Unit) :=
  fun _ _ h => nomatch h

theorem note (level : Level) (text : String) :
    Accepts (Operation.note level text : Operation σ ε Unit) := fun _ _ h => nomatch h

theorem stop (f : Fault) : Accepts (Operation.stop f : Operation σ ε α) := fun _ _ h => nomatch h

theorem difference (a b : Nat) : Accepts (Operation.difference a b : Operation σ ε Nat) := by
  unfold Operation.difference
  split
  · exact pure _
  · exact stop _

theorem bind (h : Accepts op) (hnext : ∀ a, Accepts (next a)) : Accepts (op >>= next) := by
  intro s e
  have hop := h s
  rw [outcome_bind]
  rcases hout : op.outcome s with ⟨verdict, s'⟩
  rw [hout] at hop
  cases verdict with
  | ok a => exact hnext a s' e
  | error e' => exact absurd rfl (hop e')
  | fault f => exact fun hf => nomatch hf

/-- If the rest of a block never refuses, a refusal of the block is one of its first line. -/
theorem error_of_bind (hnext : ∀ a, Accepts (next a)) {s : σ} {e : ε}
    (h : ((op >>= next).outcome s).1 = .error e) :
    (op.outcome s).1 = .error e ∧ ((op >>= next).outcome s).2 = (op.outcome s).2 := by
  rw [outcome_bind] at h ⊢
  rcases hout : op.outcome s with ⟨verdict, s'⟩
  rw [hout] at h
  cases verdict with
  | ok a => exact absurd h (hnext a s' e)
  | error e' =>
      obtain rfl : e' = e := Verdict.error.inj h
      exact ⟨rfl, rfl⟩
  | fault f => exact nomatch h

/-- A refusal that is turned into a value is none. -/
theorem attempt (op : Operation σ ε α) :
    Accepts (op.attempt : Operation σ δ (Except ε α)) := by
  intro s e
  rw [outcome_attempt]
  rcases op.outcome s with ⟨verdict, s'⟩
  cases verdict <;> exact fun h => nomatch h

theorem within {view : σ → τ} {update : σ → τ → σ} {op : Operation τ ε α} (h : Accepts op) :
    Accepts (op.within view update) :=
  fun s => h (view s)

theorem forM {step : α → Operation σ ε Unit} (h : ∀ a, Accepts (step a)) (l : List α) :
    Accepts (l.forM step) := by
  induction l with
  | nil => exact pure ()
  | cons a l ih => exact (h a).bind fun _ => ih

end Accepts

/-! ## Inspecting -/

/-- The operation only reads, and never refuses. -/
structure Inspects (op : Operation σ ε α) : Prop where
  reads : op.Reads
  accepts : op.Accepts

namespace Inspects

variable {op : Operation σ ε α} {next : α → Operation σ ε β}

theorem pure (a : α) : Inspects (Pure.pure a : Operation σ ε α) := ⟨.pure a, .pure a⟩

theorem get : Inspects (Operation.get : Operation σ ε σ) := ⟨.get, .get⟩

theorem note (level : Level) (text : String) :
    Inspects (Operation.note level text : Operation σ ε Unit) :=
  ⟨.note level text, .note level text⟩

theorem stop (f : Fault) : Inspects (Operation.stop f : Operation σ ε α) := ⟨.stop f, .stop f⟩

theorem sum (n : Nat) : Inspects (Operation.sum n : Operation σ ε Nat) := by
  unfold Operation.sum
  split
  · exact pure n
  · exact stop _

theorem bind (h : Inspects op) (hnext : ∀ a, Inspects (next a)) : Inspects (op >>= next) :=
  ⟨h.reads.bind fun a => (hnext a).reads, h.accepts.bind fun a => (hnext a).accepts⟩

theorem attempt (h : Reads op) : Inspects (op.attempt : Operation σ δ (Except ε α)) :=
  ⟨h.attempt, .attempt op⟩

end Inspects

/-! ## Refusing without a change -/

/-- A refusal of the operation leaves the state as it was. -/
def Atomic (op : Operation σ ε α) : Prop :=
  ∀ s e, (op.outcome s).1 = .error e → (op.outcome s).2 = s

theorem Reads.atomic {op : Operation σ ε α} (h : Reads op) : Atomic op := fun s _ _ => h s

theorem Accepts.atomic {op : Operation σ ε α} (h : Accepts op) : Atomic op :=
  fun s e he => absurd he (h s e)

namespace Atomic

variable {op : Operation σ ε α} {next : α → Operation σ ε β}

/-- A block is atomic if, after a first line that changes the state, nothing can be refused
any more. -/
theorem bind (h : Atomic op) (hnext : ∀ s a s', op.outcome s = (.ok a, s') →
    s' = s ∧ Atomic (next a) ∨ Accepts (next a)) : Atomic (op >>= next) := by
  intro s e he
  have hop := h s
  rw [outcome_bind] at he ⊢
  rcases hout : op.outcome s with ⟨verdict, s'⟩
  rw [hout] at hop he
  cases verdict with
  | ok a =>
      rcases hnext s a s' hout with ⟨rfl, hatomic⟩ | haccepts
      · exact hatomic _ e he
      · exact absurd he (haccepts s' e)
  | error e' => exact hop e' rfl
  | fault f => exact nomatch he

theorem bind_reads (h : Reads op) (hnext : ∀ a, Atomic (next a)) : Atomic (op >>= next) :=
  h.atomic.bind fun s a s' hout => .inl ⟨by simpa [hout] using h s, hnext a⟩

theorem bind_accepts (h : Atomic op) (hnext : ∀ a, Accepts (next a)) : Atomic (op >>= next) :=
  h.bind fun _ a _ _ => .inr (hnext a)

theorem mapError (f : ε → δ) (h : Atomic op) : Atomic (op.mapError f) := by
  intro s e he
  have hop := h s
  rw [outcome_mapError] at he ⊢
  rcases hout : op.outcome s with ⟨verdict, s'⟩
  rw [hout] at hop he
  cases verdict with
  | ok a => exact nomatch he
  | error e' => exact hop e' rfl
  | fault x => exact nomatch he

theorem within {view : σ → τ} {update : σ → τ → σ} {op : Operation τ ε α}
    (hupdate : ∀ s, update s (view s) = s) (h : Atomic op) : Atomic (op.within view update) := by
  intro s e he
  rw [outcome_within] at he ⊢
  rw [h (view s) e he, hupdate]

end Atomic

/-! ## Stopping -/

/-- From a state with the invariant, every fault goes with the state that it leaves. -/
def Stops (I : σ → Prop) (Q : Fault → σ → Prop) (op : Operation σ ε α) : Prop :=
  ∀ s, I s → ∀ f, (op.outcome s).1 = .fault f → Q f (op.outcome s).2

namespace Stops

variable {I : σ → Prop} {J : τ → Prop} {Q : Fault → σ → Prop} {P : Fault → τ → Prop}
variable {op : Operation σ ε α} {next : α → Operation σ ε β}

theorem pure (a : α) : Stops I Q (Pure.pure a : Operation σ ε α) := fun _ _ _ h => nomatch h

theorem get : Stops I Q (Operation.get : Operation σ ε σ) := fun _ _ _ h => nomatch h

theorem note (level : Level) (text : String) :
    Stops I Q (Operation.note level text : Operation σ ε Unit) := fun _ _ _ h => nomatch h

theorem refuse (e : ε) : Stops I Q (Operation.refuse e : Operation σ ε α) :=
  fun _ _ _ h => nomatch h

theorem ofExcept (answer : Except ε α) :
    Stops I Q (Operation.ofExcept answer : Operation σ ε α) := by
  cases answer with
  | ok a => exact pure a
  | error e => exact refuse e

theorem bind (hkeeps : Keeps I op) (h : Stops I Q op) (hnext : ∀ a, Stops I Q (next a)) :
    Stops I Q (op >>= next) := by
  intro s hs f hf
  have hop := h s hs
  have hinv := hkeeps s hs
  rw [outcome_bind] at hf ⊢
  rcases hout : op.outcome s with ⟨verdict, s'⟩
  rw [hout] at hop hinv hf
  cases verdict with
  | ok a => exact hnext a s' (hinv (Verdict.not_isExhaustion_ok a)) f hf
  | error e => exact nomatch hf
  | fault f' =>
      obtain rfl := Verdict.fault.inj hf
      exact hop f' rfl

/-- Lines that stop from nowhere need no invariant. -/
theorem bind_last (h : Stops I Q op) (hnext : ∀ a, Stops (fun _ => True) Q (next a)) :
    Stops I Q (op >>= next) := by
  intro s hs f hf
  have hop := h s hs
  rw [outcome_bind] at hf ⊢
  rcases hout : op.outcome s with ⟨verdict, s'⟩
  rw [hout] at hop hf
  cases verdict with
  | ok a => exact hnext a s' trivial f hf
  | error e => exact nomatch hf
  | fault f' =>
      obtain rfl := Verdict.fault.inj hf
      exact hop f' rfl

theorem mapError (g : ε → δ) (h : Stops I Q op) : Stops I Q (op.mapError g) := by
  intro s hs f hf
  have hop := h s hs
  rw [outcome_mapError] at hf ⊢
  rcases hout : op.outcome s with ⟨verdict, s'⟩
  rw [hout] at hop hf
  cases verdict with
  | ok a => exact nomatch hf
  | error e => exact nomatch hf
  | fault f' =>
      obtain rfl := Verdict.fault.inj hf
      exact hop f' rfl

theorem attempt (h : Stops I Q op) :
    Stops I Q (op.attempt : Operation σ δ (Except ε α)) := by
  intro s hs f hf
  have hop := h s hs
  rw [outcome_attempt] at hf ⊢
  rcases hout : op.outcome s with ⟨verdict, s'⟩
  rw [hout] at hop hf
  cases verdict with
  | ok a => exact nomatch hf
  | error e => exact nomatch hf
  | fault f' =>
      obtain rfl := Verdict.fault.inj hf
      exact hop f' rfl

theorem within {view : σ → τ} {update : σ → τ → σ} {op : Operation τ ε α}
    (hview : ∀ s, I s → J (view s)) (hupdate : ∀ f s t, P f t → Q f (update s t))
    (h : Stops J P op) : Stops I Q (op.within view update) :=
  fun s hs f hf => hupdate f s _ (h (view s) (hview s hs) f hf)

theorem forM {step : α → Operation σ ε Unit} (hkeeps : ∀ a, Keeps I (step a))
    (h : ∀ a, Stops I Q (step a)) (l : List α) : Stops I Q (l.forM step) := by
  induction l with
  | nil => exact pure ()
  | cons a l ih => exact bind (hkeeps a) (h a) fun _ => ih

end Stops

/-! ## Answering none without a change -/

/-- An operation that answers `none` leaves the state as it was. -/
def IdleOnNone (op : Operation σ ε (Option α)) : Prop :=
  ∀ s s', op.outcome s = (.ok none, s') → s' = s

namespace IdleOnNone

variable {op : Operation σ ε (Option α)}

theorem of_reads (h : Reads op) : IdleOnNone op := by
  intro s s' hout
  have hop := h s
  rw [hout] at hop
  exact hop

theorem of_yields (h : Yields (fun answer => answer ≠ none) op) : IdleOnNone op := by
  intro s s' hout
  exact absurd rfl (h s none (by rw [hout]))

theorem bind {op : Operation σ ε β} {next : β → Operation σ ε (Option α)} (h : Reads op)
    (hnext : ∀ b, IdleOnNone (next b)) : IdleOnNone (op >>= next) := by
  intro s s' hout
  have hop := h s
  rw [outcome_bind] at hout
  rcases hs : op.outcome s with ⟨verdict, s₁⟩
  rw [hs] at hop hout
  cases verdict with
  | ok b => exact (hnext b s₁ s' hout).trans hop
  | error e => exact nomatch hout
  | fault f => exact nomatch hout

end IdleOnNone

end Operation

end KernelMemory
