import KernelMemory.Proofs.Outcome

/-!
# Operations in agreement

Two operations, each on states of its own, agree from a pair of states if they end with the
same verdict and the states they leave are related. Where two `do` blocks have the same
lines, their agreement is put together from that of the lines; what a line is known to have
answered and done on the second side may be used for the lines behind it.
-/

namespace KernelMemory

namespace Operation

variable {σ τ ε δ α β : Type}

/-- From `s` and `t`, both operations end with the same verdict, and in related states. -/
structure Agree (R : σ → τ → Prop) (op : Operation σ ε α) (op' : Operation τ ε α) (s : σ)
    (t : τ) : Prop where
  verdict_eq : (op.outcome s).1 = (op'.outcome t).1
  related : R (op.outcome s).2 (op'.outcome t).2

namespace Agree

variable {R : σ → τ → Prop} {s : σ} {t : τ}

/-! ## Single lines -/

theorem pure (h : R s t) (a : α) :
    Agree R (Pure.pure a : Operation σ ε α) (Pure.pure a : Operation τ ε α) s t :=
  ⟨rfl, h⟩

theorem modify {f : σ → σ} {g : τ → τ} (h : R (f s) (g t)) :
    Agree R (Operation.modify f : Operation σ ε Unit) (Operation.modify g : Operation τ ε Unit)
      s t :=
  ⟨rfl, h⟩

theorem note (h : R s t) (level : Level) (text : String) :
    Agree R (Operation.note level text : Operation σ ε Unit)
      (Operation.note level text : Operation τ ε Unit) s t :=
  ⟨rfl, h⟩

theorem refuse (h : R s t) (e : ε) :
    Agree R (Operation.refuse e : Operation σ ε α) (Operation.refuse e : Operation τ ε α) s t :=
  ⟨rfl, h⟩

theorem crash (h : R s t) (f : Fault) :
    Agree R (Operation.crash f : Operation σ ε α) (Operation.crash f : Operation τ ε α) s t :=
  ⟨rfl, h⟩

theorem ofExcept (h : R s t) (answer : Except ε α) :
    Agree R (Operation.ofExcept answer : Operation σ ε α)
      (Operation.ofExcept answer : Operation τ ε α) s t := by
  cases answer with
  | ok a => exact .pure h a
  | error e => exact .refuse h e

/-! ## Blocks -/

variable {op : Operation σ ε α} {op' : Operation τ ε α}

theorem of_outcome {verdict : Verdict ε α} {s' : σ} {t' : τ} (hs : op.outcome s = (verdict, s'))
    (ht : op'.outcome t = (verdict, t')) (h : R s' t') : Agree R op op' s t := by
  refine ⟨?_, ?_⟩
  · rw [hs, ht]
  · rw [hs, ht]
    exact h

/-- Operations of which only the rest is left, in other states. -/
theorem of_rest {s' : σ} {t' : τ} {rest : Operation σ ε α} {rest' : Operation τ ε α}
    (hs : op.outcome s = rest.outcome s') (ht : op'.outcome t = rest'.outcome t')
    (h : Agree R rest rest' s' t') : Agree R op op' s t := by
  refine ⟨?_, ?_⟩
  · rw [hs, ht]
    exact h.verdict_eq
  · rw [hs, ht]
    exact h.related

/-- What agrees is how the first operation ends, not how it is written. -/
theorem congr_outcome {op₁ : Operation σ ε α} (heq : op₁.outcome s = op.outcome s)
    (h : Agree R op op' s t) : Agree R op₁ op' s t :=
  .of_rest heq rfl h

theorem exists_outcome (h : Agree R op op' s t) :
    ∃ verdict s' t', op.outcome s = (verdict, s') ∧ op'.outcome t = (verdict, t') ∧ R s' t' :=
  ⟨(op.outcome s).1, (op.outcome s).2, (op'.outcome t).2, rfl,
    Prod.ext h.verdict_eq.symm rfl, h.related⟩

theorem bind {next : α → Operation σ ε β} {next' : α → Operation τ ε β}
    (h : Agree R op op' s t)
    (hnext : ∀ a s' t', op'.outcome t = (.ok a, t') → R s' t' → Agree R (next a) (next' a) s' t') :
    Agree R (op >>= next) (op' >>= next') s t := by
  obtain ⟨verdict, s', t', hs, ht, hrelated⟩ := h.exists_outcome
  cases verdict with
  | ok a =>
      obtain ⟨verdict, s'', t'', hs', ht', hrelated'⟩ :=
        (hnext a s' t' ht hrelated).exists_outcome
      exact of_outcome ((outcome_bind_ok hs _).trans hs') ((outcome_bind_ok ht _).trans ht')
        hrelated'
  | error e => exact of_outcome (outcome_bind_error hs _) (outcome_bind_error ht _) hrelated
  | fault f => exact of_outcome (outcome_bind_fault hs _) (outcome_bind_fault ht _) hrelated

theorem get_bind {next : σ → Operation σ ε β} {next' : τ → Operation τ ε β}
    (h : Agree R (next s) (next' t) s t) :
    Agree R (Operation.get >>= next) (Operation.get >>= next') s t := by
  obtain ⟨verdict, s', t', hs, ht, hrelated⟩ := h.exists_outcome
  exact of_outcome hs ht hrelated

/-- Only the second operation reads its state first. -/
theorem get_bind_right {next' : τ → Operation τ ε α} (h : Agree R op (next' t) s t) :
    Agree R op (Operation.get >>= next') s t :=
  ⟨h.verdict_eq, h.related⟩

theorem attempt (h : Agree R op op' s t) :
    Agree R (op.attempt : Operation σ δ (Except ε α)) op'.attempt s t := by
  obtain ⟨verdict, s', t', hs, ht, hrelated⟩ := h.exists_outcome
  cases verdict <;>
    exact of_outcome (by rw [outcome_attempt, hs]) (by rw [outcome_attempt, ht]) hrelated

theorem mapError (f : ε → δ) (h : Agree R op op' s t) :
    Agree R (op.mapError f) (op'.mapError f) s t := by
  obtain ⟨verdict, s', t', hs, ht, hrelated⟩ := h.exists_outcome
  cases verdict <;>
    exact of_outcome (by rw [outcome_mapError, hs]) (by rw [outcome_mapError, ht]) hrelated

/-- Operations on related parts agree on the whole. -/
theorem within {σ' τ' : Type} {Q : σ' → τ' → Prop} {view : σ → σ'} {update : σ → σ' → σ}
    {view' : τ → τ'} {update' : τ → τ' → τ} {op : Operation σ' ε α} {op' : Operation τ' ε α}
    (hR : ∀ a b, Q a b → R (update s a) (update' t b)) (h : Agree Q op op' (view s) (view' t)) :
    Agree R (op.within view update) (op'.within view' update') s t :=
  ⟨h.verdict_eq, hR _ _ h.related⟩

theorem forM {step : β → Operation σ ε Unit} {step' : β → Operation τ ε Unit}
    (hstep : ∀ b s t, R s t → Agree R (step b) (step' b) s t) (l : List β) (h : R s t) :
    Agree R (l.forM step) (l.forM step') s t := by
  induction l generalizing s t with
  | nil => exact .pure h ()
  | cons b l ih => exact (hstep b s t h).bind fun _ _ _ _ h' => ih h'

end Agree

end Operation

end KernelMemory
