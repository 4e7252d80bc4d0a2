import KernelMemory.Fault
import KernelMemory.Journal
import KernelMemory.Word

/-!
# Operations

An operation on a state `σ` answers a value, refuses with an error `ε`, or stops with
a fault. In all three cases it says what the state has become and which records it
wrote, so that a fault in the middle of a change shows the change as far as it got.
Operations are sequenced in `do` blocks: the first refusal or fault ends the block.
-/

namespace KernelMemory

/-- How an operation ended. -/
inductive Verdict (ε α : Type)
  | ok (value : α)
  | error (error : ε)
  | fault (fault : Fault)
  deriving DecidableEq

/-- The end of an operation: its verdict, the state it left and its records in order. -/
structure Reply (σ ε α : Type) where
  verdict : Verdict ε α
  state : σ
  journal : List Record

/-- An operation on states `σ` that may refuse with `ε`. -/
def Operation (σ ε α : Type) : Type :=
  σ → Reply σ ε α

namespace Operation

variable {σ τ ε δ α β : Type}

def run (op : Operation σ ε α) (s : σ) : Reply σ ε α :=
  op s

protected def pure (a : α) : Operation σ ε α :=
  fun s => ⟨.ok a, s, []⟩

protected def bind (op : Operation σ ε α) (next : α → Operation σ ε β) : Operation σ ε β :=
  fun s =>
    match op s with
    | ⟨.ok a, s', journal⟩ =>
      let reply := next a s'
      ⟨reply.verdict, reply.state, journal ++ reply.journal⟩
    | ⟨.error e, s', journal⟩ => ⟨.error e, s', journal⟩
    | ⟨.fault f, s', journal⟩ => ⟨.fault f, s', journal⟩

instance : Monad (Operation σ ε) where
  pure := Operation.pure
  bind := Operation.bind

/-! ## Single steps -/

def get : Operation σ ε σ :=
  fun s => ⟨.ok s, s, []⟩

def set (s : σ) : Operation σ ε Unit :=
  fun _ => ⟨.ok (), s, []⟩

def modify (f : σ → σ) : Operation σ ε Unit :=
  fun s => ⟨.ok (), f s, []⟩

def note (level : Level) (text : String) : Operation σ ε Unit :=
  fun s => ⟨.ok (), s, [⟨level, text⟩]⟩

def refuse (e : ε) : Operation σ ε α :=
  fun s => ⟨.error e, s, []⟩

def stop (f : Fault) : Operation σ ε α :=
  fun s => ⟨.fault f, s, []⟩

/-- Writes the text of a fault as an error record and ends with it. -/
def crash (f : Fault) : Operation σ ε α := do
  note .error f.message
  stop f

/-- A sum that must stay in the 64-bit range. -/
def sum (n : Nat) : Operation σ ε Nat :=
  if n < Word.bound then pure n else stop .addOverflow

/-- A difference that must not be negative. -/
def difference (a b : Nat) : Operation σ ε Nat :=
  if b ≤ a then pure (a - b) else stop .subOverflow

/-! ## Combinations -/

/-- A verdict that was reached without changing the state. -/
def ofVerdict : Verdict ε α → Operation σ ε α
  | .ok a => pure a
  | .error e => refuse e
  | .fault f => stop f

/-- A computed answer or refusal as an operation that leaves the state alone. -/
def ofExcept : Except ε α → Operation σ ε α
  | .ok a => pure a
  | .error e => refuse e

/-- A missing value as a refusal. -/
def ofOption (e : ε) : Option α → Operation σ ε α
  | some a => pure a
  | none => refuse e

/-- Changes what an operation refuses with. -/
def mapError (f : ε → δ) (op : Operation σ ε α) : Operation σ δ α :=
  fun s =>
    match op s with
    | ⟨.ok a, s', journal⟩ => ⟨.ok a, s', journal⟩
    | ⟨.error e, s', journal⟩ => ⟨.error (f e), s', journal⟩
    | ⟨.fault x, s', journal⟩ => ⟨.fault x, s', journal⟩

/-- Turns a refusal into a value, so that the caller can go on after it. -/
def attempt (op : Operation σ ε α) : Operation σ δ (Except ε α) :=
  fun s =>
    match op s with
    | ⟨.ok a, s', journal⟩ => ⟨.ok (.ok a), s', journal⟩
    | ⟨.error e, s', journal⟩ => ⟨.ok (.error e), s', journal⟩
    | ⟨.fault x, s', journal⟩ => ⟨.fault x, s', journal⟩

/-- Runs an operation on a part of the state. -/
def within (view : σ → τ) (update : σ → τ → σ) (op : Operation τ ε α) : Operation σ ε α :=
  fun s =>
    let reply := op (view s)
    ⟨reply.verdict, update s reply.state, reply.journal⟩

/-- Changes the state once an operation has ended, however it ended. -/
def ensuring (op : Operation σ ε α) (f : σ → σ) : Operation σ ε α :=
  fun s =>
    let reply := op s
    { reply with state := f reply.state }

/-- Runs an operation on a state that the rest of the block does not see, and returns
its answer together with what became of that state. -/
def build (s : τ) (op : Operation τ ε α) : Operation σ ε (α × τ) :=
  fun outer =>
    match op s with
    | ⟨.ok a, s', journal⟩ => ⟨.ok (a, s'), outer, journal⟩
    | ⟨.error e, _, journal⟩ => ⟨.error e, outer, journal⟩
    | ⟨.fault x, _, journal⟩ => ⟨.fault x, outer, journal⟩

/-! ## Running -/

@[simp] theorem run_pure (a : α) (s : σ) :
    (pure a : Operation σ ε α).run s = ⟨.ok a, s, []⟩ := rfl

@[simp] theorem run_get (s : σ) : (get : Operation σ ε σ).run s = ⟨.ok s, s, []⟩ := rfl

@[simp] theorem run_set (s s' : σ) :
    (set s' : Operation σ ε Unit).run s = ⟨.ok (), s', []⟩ := rfl

@[simp] theorem run_modify (f : σ → σ) (s : σ) :
    (modify f : Operation σ ε Unit).run s = ⟨.ok (), f s, []⟩ := rfl

@[simp] theorem run_note (level : Level) (text : String) (s : σ) :
    (note level text : Operation σ ε Unit).run s = ⟨.ok (), s, [⟨level, text⟩]⟩ := rfl

@[simp] theorem run_refuse (e : ε) (s : σ) :
    (refuse e : Operation σ ε α).run s = ⟨.error e, s, []⟩ := rfl

@[simp] theorem run_stop (f : Fault) (s : σ) :
    (stop f : Operation σ ε α).run s = ⟨.fault f, s, []⟩ := rfl

theorem run_bind (op : Operation σ ε α) (next : α → Operation σ ε β) (s : σ) :
    (op >>= next).run s =
      match op.run s with
      | ⟨.ok a, s', journal⟩ =>
        ⟨((next a).run s').verdict, ((next a).run s').state,
          journal ++ ((next a).run s').journal⟩
      | ⟨.error e, s', journal⟩ => ⟨.error e, s', journal⟩
      | ⟨.fault f, s', journal⟩ => ⟨.fault f, s', journal⟩ := rfl

instance : LawfulMonad (Operation σ ε) :=
  LawfulMonad.mk' (Operation σ ε)
    (by
      intro α op
      funext s
      show Operation.bind op (fun a => Operation.pure (id a)) s = op s
      unfold Operation.bind Operation.pure
      rcases op s with ⟨verdict, state, journal⟩
      cases verdict <;> simp)
    (by intro α β a next; rfl)
    (by
      intro α β γ op f g
      funext s
      show Operation.bind (Operation.bind op f) g s =
        Operation.bind op (fun a => Operation.bind (f a) g) s
      unfold Operation.bind
      rcases op s with ⟨verdict, state, journal⟩
      cases verdict with
      | ok a =>
        rcases hf : f a state with ⟨verdict', state', journal'⟩
        cases verdict' <;> simp [hf, List.append_assoc]
      | error e => rfl
      | fault x => rfl)

end Operation

end KernelMemory
