import KernelMemory.Operation

/-!
# Outcomes

The records an operation writes say nothing about what it does to the state, and carrying
them through an argument only hides the argument. The outcome of an operation is what is
left without them: the verdict and the state. Every combinator has an equation for its
outcome, so a `do` block is taken apart by rewriting, one line of the block at a time.
-/

namespace KernelMemory

namespace Operation

variable {σ τ ε δ α β : Type}

/-- The verdict of an operation and the state it leaves. -/
def outcome (op : Operation σ ε α) (s : σ) : Verdict ε α × σ :=
  ((op.run s).verdict, (op.run s).state)

theorem verdict_run (op : Operation σ ε α) (s : σ) :
    (op.run s).verdict = (op.outcome s).1 := rfl

theorem state_run (op : Operation σ ε α) (s : σ) :
    (op.run s).state = (op.outcome s).2 := rfl

/-! ## Single steps -/

@[simp] theorem outcome_pure (a : α) (s : σ) :
    (pure a : Operation σ ε α).outcome s = (.ok a, s) := rfl

@[simp] theorem outcome_get (s : σ) :
    (get : Operation σ ε σ).outcome s = (.ok s, s) := rfl

@[simp] theorem outcome_set (s s' : σ) :
    (set s' : Operation σ ε Unit).outcome s = (.ok (), s') := rfl

@[simp] theorem outcome_modify (f : σ → σ) (s : σ) :
    (modify f : Operation σ ε Unit).outcome s = (.ok (), f s) := rfl

@[simp] theorem outcome_note (level : Level) (text : String) (s : σ) :
    (note level text : Operation σ ε Unit).outcome s = (.ok (), s) := rfl

@[simp] theorem outcome_refuse (e : ε) (s : σ) :
    (refuse e : Operation σ ε α).outcome s = (.error e, s) := rfl

@[simp] theorem outcome_stop (f : Fault) (s : σ) :
    (stop f : Operation σ ε α).outcome s = (.fault f, s) := rfl

@[simp] theorem outcome_ofExcept_ok (a : α) (s : σ) :
    (ofExcept (.ok a) : Operation σ ε α).outcome s = (.ok a, s) := rfl

@[simp] theorem outcome_ofExcept_error (e : ε) (s : σ) :
    (ofExcept (.error e) : Operation σ ε α).outcome s = (.error e, s) := rfl

theorem outcome_sum {n : Nat} (h : n < Word.bound) (s : σ) :
    (sum n : Operation σ ε Nat).outcome s = (.ok n, s) := by
  rw [sum, if_pos h, outcome_pure]

theorem outcome_difference {a b : Nat} (h : b ≤ a) (s : σ) :
    (difference a b : Operation σ ε Nat).outcome s = (.ok (a - b), s) := by
  rw [difference, if_pos h, outcome_pure]

/-! ## Combinations -/

theorem outcome_bind (op : Operation σ ε α) (next : α → Operation σ ε β) (s : σ) :
    (op >>= next).outcome s =
      match op.outcome s with
      | (.ok a, s') => (next a).outcome s'
      | (.error e, s') => (.error e, s')
      | (.fault f, s') => (.fault f, s') := by
  unfold outcome
  rw [run_bind]
  rcases op.run s with ⟨verdict, s', journal⟩
  cases verdict <;> rfl

theorem outcome_bind_ok {op : Operation σ ε α} {s s' : σ} {a : α}
    (h : op.outcome s = (.ok a, s')) (next : α → Operation σ ε β) :
    (op >>= next).outcome s = (next a).outcome s' := by
  rw [outcome_bind, h]

theorem outcome_bind_error {op : Operation σ ε α} {s s' : σ} {e : ε}
    (h : op.outcome s = (.error e, s')) (next : α → Operation σ ε β) :
    (op >>= next).outcome s = (.error e, s') := by
  rw [outcome_bind, h]

theorem outcome_bind_fault {op : Operation σ ε α} {s s' : σ} {f : Fault}
    (h : op.outcome s = (.fault f, s')) (next : α → Operation σ ε β) :
    (op >>= next).outcome s = (.fault f, s') := by
  rw [outcome_bind, h]

theorem outcome_map (f : α → β) (op : Operation σ ε α) (s : σ) :
    (f <$> op).outcome s =
      match op.outcome s with
      | (.ok a, s') => (.ok (f a), s')
      | (.error e, s') => (.error e, s')
      | (.fault x, s') => (.fault x, s') :=
  outcome_bind op (pure ∘ f) s

theorem outcome_map_ok {op : Operation σ ε α} {s s' : σ} {a : α}
    (h : op.outcome s = (.ok a, s')) (f : α → β) : (f <$> op).outcome s = (.ok (f a), s') :=
  outcome_bind_ok h (pure ∘ f)

theorem state_map (f : α → β) (op : Operation σ ε α) (s : σ) :
    ((f <$> op).outcome s).2 = (op.outcome s).2 := by
  rw [outcome_map]
  rcases op.outcome s with ⟨verdict, s'⟩
  cases verdict <;> rfl

theorem verdict_map_congr {op : Operation σ ε α} {op' : Operation τ ε α} {s : σ} {s' : τ}
    (h : (op.outcome s).1 = (op'.outcome s').1) (f : α → β) :
    ((f <$> op).outcome s).1 = ((f <$> op').outcome s').1 := by
  rw [outcome_map, outcome_map]
  revert h
  rcases op.outcome s with ⟨verdict, t⟩
  rcases op'.outcome s' with ⟨verdict', t'⟩
  rintro rfl
  cases verdict <;> rfl

@[simp] theorem outcome_get_bind (next : σ → Operation σ ε β) (s : σ) :
    (get >>= next).outcome s = (next s).outcome s := rfl

@[simp] theorem outcome_set_bind (s' : σ) (next : Unit → Operation σ ε β) (s : σ) :
    (set s' >>= next).outcome s = (next ()).outcome s' := rfl

@[simp] theorem outcome_modify_bind (f : σ → σ) (next : Unit → Operation σ ε β) (s : σ) :
    (modify f >>= next).outcome s = (next ()).outcome (f s) := rfl

@[simp] theorem outcome_note_bind (level : Level) (text : String)
    (next : Unit → Operation σ ε β) (s : σ) :
    (note level text >>= next).outcome s = (next ()).outcome s := rfl

@[simp] theorem outcome_refuse_bind (e : ε) (next : α → Operation σ ε β) (s : σ) :
    (refuse e >>= next).outcome s = (.error e, s) := rfl

@[simp] theorem outcome_stop_bind (f : Fault) (next : α → Operation σ ε β) (s : σ) :
    (stop f >>= next).outcome s = (.fault f, s) := rfl

theorem outcome_mapError (f : ε → δ) (op : Operation σ ε α) (s : σ) :
    (op.mapError f).outcome s =
      match op.outcome s with
      | (.ok a, s') => (.ok a, s')
      | (.error e, s') => (.error (f e), s')
      | (.fault x, s') => (.fault x, s') := by
  unfold outcome
  show ((mapError f op s).verdict, (mapError f op s).state) = _
  unfold mapError run
  rcases op s with ⟨verdict, s', journal⟩
  cases verdict <;> rfl

theorem outcome_attempt (op : Operation σ ε α) (s : σ) :
    (op.attempt : Operation σ δ (Except ε α)).outcome s =
      match op.outcome s with
      | (.ok a, s') => (.ok (.ok a), s')
      | (.error e, s') => (.ok (.error e), s')
      | (.fault x, s') => (.fault x, s') := by
  unfold outcome
  show ((attempt op s).verdict, (attempt op s).state) = _
  unfold attempt run
  rcases op s with ⟨verdict, s', journal⟩
  cases verdict <;> rfl

theorem outcome_of_attempt {op : Operation σ ε α} {s s' : σ} {a : α}
    (h : (op.attempt : Operation σ δ (Except ε α)).outcome s = (.ok (.ok a), s')) :
    op.outcome s = (.ok a, s') := by
  rw [outcome_attempt] at h
  rcases hop : op.outcome s with ⟨verdict, t⟩
  rw [hop] at h
  cases verdict with
  | ok b =>
      obtain ⟨hverdict, rfl⟩ := Prod.mk.inj h
      rw [Except.ok.inj (Verdict.ok.inj hverdict)]
  | error e => exact nomatch Verdict.ok.inj (Prod.mk.inj h).1
  | fault f => exact nomatch (Prod.mk.inj h).1

theorem outcome_of_mapError {f : ε → δ} {op : Operation σ ε α} {s s' : σ} {a : α}
    (h : (op.mapError f).outcome s = (.ok a, s')) : op.outcome s = (.ok a, s') := by
  rw [outcome_mapError] at h
  rcases hop : op.outcome s with ⟨verdict, t⟩
  rw [hop] at h
  cases verdict with
  | ok b =>
      obtain ⟨hverdict, rfl⟩ := Prod.mk.inj h
      rw [Verdict.ok.inj hverdict]
  | error e => exact nomatch (Prod.mk.inj h).1
  | fault x => exact nomatch (Prod.mk.inj h).1

theorem outcome_within (view : σ → τ) (update : σ → τ → σ) (op : Operation τ ε α) (s : σ) :
    (op.within view update).outcome s =
      ((op.outcome (view s)).1, update s (op.outcome (view s)).2) := rfl

theorem outcome_build (t : τ) (op : Operation τ ε α) (s : σ) :
    (build t op).outcome s =
      match op.outcome t with
      | (.ok a, t') => (.ok (a, t'), s)
      | (.error e, _) => (.error e, s)
      | (.fault x, _) => (.fault x, s) := by
  unfold outcome
  show ((build t op s).verdict, (build t op s).state) = _
  unfold build run
  rcases op t with ⟨verdict, t', journal⟩
  cases verdict <;> rfl

end Operation

/-- The one fault that only lack of slots explains: every slot number of an index is
taken. -/
def Verdict.IsExhaustion {ε α : Type} (v : Verdict ε α) : Prop :=
  ∃ slots, v = .fault (.slotsExhausted slots)

theorem Verdict.not_isExhaustion_of_ok {ε α : Type} {v : Verdict ε α} {a : α} (h : v = .ok a) :
    ¬ v.IsExhaustion :=
  fun ⟨_, hslots⟩ => nomatch h.symm.trans hslots

end KernelMemory
