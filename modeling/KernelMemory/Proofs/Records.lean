import KernelMemory.Proofs.Outcome

/-!
# Records

An outcome leaves the records out. Where they matter an operation is followed in its runs, and
almost every line of a `do` block then has to be known for one thing only: that it writes
nothing. A line that ends with a fault does write something, the text of the fault, so what is
said of the records of an operation is said of the runs in which it answers.
-/

namespace KernelMemory

namespace Operation

variable {σ ε α β : Type} {P : List Record → Prop} {op : Operation σ ε α}
variable {next : α → Operation σ ε β} {a : α} {b : β} {s s' s'' : σ} {journal : List Record}

theorem outcome_of_run {verdict : Verdict ε α} (h : op.run s = ⟨verdict, s', journal⟩) :
    op.outcome s = (verdict, s') := by
  rw [outcome, h]

/-- A block answers if both its parts do, and its records are theirs. -/
theorem run_bind_eq_ok_iff :
    (op >>= next).run s = ⟨.ok b, s'', journal⟩ ↔
      ∃ a s' journal₁ journal₂, op.run s = ⟨.ok a, s', journal₁⟩ ∧
        (next a).run s' = ⟨.ok b, s'', journal₂⟩ ∧ journal = journal₁ ++ journal₂ := by
  rw [run_bind]
  rcases op.run s with ⟨verdict, s', journal₁⟩
  cases verdict with
  | ok a =>
      constructor
      · intro h
        obtain ⟨hverdict, hstate, rfl⟩ := Reply.mk.inj h
        exact ⟨a, s', journal₁, _, rfl, by rw [← hverdict, ← hstate], rfl⟩
      · rintro ⟨_, _, _, _, ⟨⟩, hnext, rfl⟩
        simp only [hnext]
  | error e => simp
  | fault f => simp

/-- Whatever the operation writes in a run in which it answers has the property. -/
def Writes (P : List Record → Prop) (op : Operation σ ε α) : Prop :=
  ∀ s a, (op.outcome s).1 = .ok a → P (op.run s).journal

/-- The operation writes no record if it answers. -/
def Quiet (op : Operation σ ε α) : Prop :=
  op.Writes (· = [])

namespace Writes

theorem of_stops (h : ∀ s a, (op.outcome s).1 ≠ .ok a) : Writes P op :=
  fun s a hs => absurd hs (h s a)

theorem note_bind {level : Level} {text : String} {next : Unit → Operation σ ε β}
    (h : Quiet (next ())) : Writes (· = [⟨level, text⟩]) (note level text >>= next) := by
  intro s b hs
  have hnext : ((next ()).run s).journal = [] := h s b hs
  rw [run_bind, run_note]
  simp only [hnext, List.append_nil]

theorem mono {Q : List Record → Prop} (h : Writes P op) (hPQ : ∀ journal, P journal → Q journal) :
    Writes Q op :=
  fun s a hs => hPQ _ (h s a hs)

theorem of_run (h : Writes P op) (hrun : op.run s = ⟨.ok a, s', journal⟩) : P journal := by
  have hwrites := h s a (by rw [outcome, hrun])
  rwa [hrun] at hwrites

end Writes

namespace Quiet

/-- Behind a first line that writes nothing, a block writes what its rest does. -/
theorem writes_bind (h : Quiet op) (hnext : ∀ a, Writes P (next a)) : Writes P (op >>= next) := by
  intro s b hs
  rw [outcome_bind] at hs
  rw [run_bind]
  have hop := h s
  rw [outcome] at hs hop
  rcases hrun : op.run s with ⟨verdict, s', journal⟩
  rw [hrun] at hs hop
  cases verdict with
  | ok a =>
      obtain rfl : journal = [] := hop a rfl
      exact hnext a s' b hs
  | error e => exact nomatch hs
  | fault f => exact nomatch hs

theorem bind (h : Quiet op) (hnext : ∀ a, Quiet (next a)) : Quiet (op >>= next) :=
  h.writes_bind hnext

theorem pure (a : α) : Quiet (Pure.pure a : Operation σ ε α) := fun _ _ _ => rfl

theorem get : Quiet (Operation.get : Operation σ ε σ) := fun _ _ _ => rfl

theorem set (s : σ) : Quiet (Operation.set s : Operation σ ε Unit) := fun _ _ _ => rfl

theorem modify (f : σ → σ) : Quiet (Operation.modify f : Operation σ ε Unit) := fun _ _ _ => rfl

theorem refuse (e : ε) : Quiet (Operation.refuse e : Operation σ ε α) := fun _ _ _ => rfl

theorem stop (f : Fault) : Quiet (Operation.stop f : Operation σ ε α) := fun _ _ _ => rfl

theorem note_stop (level : Level) (text : String) (f : Fault) :
    Quiet (note level text >>= fun _ => Operation.stop f : Operation σ ε α) :=
  Writes.of_stops fun _ _ hs => nomatch hs

theorem crash (f : Fault) : Quiet (Operation.crash f : Operation σ ε α) :=
  note_stop .error f.message f

theorem run_eq (h : Quiet op) (hout : op.outcome s = (.ok a, s')) :
    op.run s = ⟨.ok a, s', []⟩ := by
  have hquiet := h s a (by rw [hout])
  obtain ⟨hverdict, hstate⟩ := Prod.mk.inj hout
  rcases hrun : op.run s with ⟨verdict, t, journal⟩
  rw [hrun] at hquiet hverdict hstate
  obtain rfl : verdict = .ok a := hverdict
  obtain rfl : t = s' := hstate
  obtain rfl : journal = [] := hquiet
  rfl

/-- The run of a block whose first line writes nothing is the run of the rest. -/
theorem run_bind_ok (h : Quiet op) (hout : op.outcome s = (.ok a, s'))
    (next : α → Operation σ ε β) : (op >>= next).run s = (next a).run s' := by
  rw [run_bind, h.run_eq hout]
  rfl

end Quiet

end Operation

end KernelMemory
