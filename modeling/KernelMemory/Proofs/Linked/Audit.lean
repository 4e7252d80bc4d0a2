import Mathlib.Data.List.Chain
import KernelMemory.Proofs.Linked.Update

/-!
# Auditing linked indexes

An audit follows every link of a linked index in both directions. On a drawing of a balanced
tree it finds what the tree says: the height and the number of nodes from below, and the
nodes in order, one after another, by going to the first node of the right side or, without
one, up to the first node that the path lies left of. So the only defect it can report is
that of the first pair of neighbours that the keying does not put in order.
-/

namespace KernelMemory

namespace Index

variable {α κ : Type}

/-- The second of two neighbours follows the first by the keying. -/
def Follows (keying : Keying α κ) (p q : Handle × α) : Prop :=
  keying.compare (keying.key p.2) (keying.key q.2) = .lt

theorem firstDisorder?_eq_none_iff {keying : Keying α κ} {l : List (Handle × α)} :
    firstDisorder? keying l = none ↔ l.IsChain (Follows keying) := by
  induction l with
  | nil => simp [firstDisorder?]
  | cons p l ih =>
      cases l with
      | nil => simp [firstDisorder?]
      | cons q l =>
          rw [firstDisorder?, List.isChain_cons_cons, ← ih]
          split
          · next h => simp [Follows, h]
          · next h => simp [Follows, h]

/-- The defect is that of the first pair out of order. -/
theorem firstDisorder?_of_split {keying : Keying α κ} {pre post : List (Handle × α)}
    {p q : Handle × α} (hpre : (pre ++ [p]).IsChain (Follows keying))
    (h : ¬ Follows keying p q) :
    firstDisorder? keying (pre ++ p :: q :: post) = some (.outOfOrder q.1 p.1) := by
  induction pre with
  | nil => exact if_neg h
  | cons a pre ih =>
      cases pre with
      | nil =>
          rw [List.cons_append, List.nil_append, List.isChain_cons_cons] at hpre
          exact (if_pos hpre.1).trans (ih (List.IsChain.singleton p))
      | cons b pre =>
          rw [List.cons_append, List.cons_append, List.isChain_cons_cons] at hpre
          exact (if_pos hpre.1).trans (ih hpre.2)

/-- Of a sound index, the audit looks at nothing but the order. -/
theorem Sound.audit_eq_firstDisorder? {ix : Index α} (h : ix.Sound) (keying : Keying α κ) :
    ix.audit keying =
      match firstDisorder? keying ix.toList with
      | some violation => .error violation
      | none => .ok () := by
  rw [audit, h.balanced.audit_eq]
  exact if_neg (not_not_intro h.size_eq.symm)

end Index

namespace Linked

variable {α κ ε : Type} {x : Linked α} {ix : Index α} {id : Handle} {v : α}
variable {t : Tree α} {path : Path α} {base : Option Handle}

/-! ## From below -/

theorem outcome_auditChild (h : x.Draws (some id) t) :
    (auditChild id t.root?).outcome x = (.ok (), x) := by
  cases t with
  | nil => rfl
  | node left k v height right =>
      show (Operation.get >>= _).outcome x = _
      rw [Operation.outcome_get_bind, h.1]
      exact congrFun (congrArg Operation.outcome (if_pos rfl)) x

/-- Every node passes, and the answer counts them. -/
theorem outcome_auditFrom (h : x.Draws base t) (hb : t.Balanced) {steps : Nat}
    (hsteps : t.size ≤ steps) :
    (auditFrom steps t.root?).outcome x = (.ok (t.height, t.size), x) := by
  induction t generalizing base steps with
  | nil => cases steps <;> rfl
  | node left id v height right ihl ihr =>
      obtain ⟨hid, hl, hr⟩ := h
      obtain ⟨hlb, hrb, hheight, hlr, hrl⟩ := hb
      obtain ⟨steps, rfl, hlsteps, hrsteps⟩ := Tree.exists_steps hsteps
      show (Operation.get >>= _).outcome x = _
      rw [Operation.outcome_get_bind, hid]
      simp only []
      rw [Operation.outcome_bind_ok (outcome_auditChild hr),
        Operation.outcome_bind_ok (outcome_auditChild hl),
        Operation.outcome_bind_ok (ihl hl hlb hlsteps),
        Operation.outcome_bind_ok (ihr hr hrb hrsteps)]
      simp only []
      rw [if_neg (not_not_intro hheight), if_neg (by omega), hheight]
      rfl

/-! ## In order -/

/-- Having come to `rest`, the audit finds the first pair out of order from there on: by
induction on what is left of the sequence. -/
theorem outcome_auditOrder (keying : Keying α κ) (h : x.Shows t) (hn : t.handles.Nodup)
    (hsteps : t.size ≤ x.cells.size) {pre rest : List (Handle × α)} {steps : Nat}
    (hl : t.toList = pre ++ rest) (hrest : rest.length ≤ steps) :
    (auditOrder keying steps (pre.getLast?.map Prod.fst) (rest.head?.map Prod.fst)).outcome x =
      match Index.firstDisorder? keying (pre.getLast?.toList ++ rest) with
      | some violation => (.error violation, x)
      | none => (.ok (), x) := by
  induction rest generalizing pre steps with
  | nil =>
      have hnone : Index.firstDisorder? keying (pre.getLast?.toList ++ []) = none := by
        cases pre.getLast? <;> rfl
      rw [hnone]
      cases steps <;> rfl
  | cons p rest ih =>
      obtain ⟨id, v⟩ := p
      obtain ⟨steps, rfl⟩ : ∃ k, steps = k + 1 := ⟨steps - 1, by simp at hrest; omega⟩
      obtain ⟨n, hid, rfl⟩ := h.draws.exists_value (show (id, v) ∈ t.toList by simp [hl])
      have hnext := ih (show t.toList = (pre ++ [(id, n.value)]) ++ rest by simp [hl])
        (show rest.length ≤ steps by simpa using hrest)
      rw [List.getLast?_concat] at hnext
      show (next? .right id >>= _).outcome x = _
      rw [Operation.outcome_bind_ok (h.outcome_next? hn hsteps hl),
        Operation.outcome_bind_ok (outcome_resolve hid)]
      cases hlast : pre.getLast? with
      | none => exact hnext
      | some q =>
          obtain ⟨k, w⟩ := q
          obtain ⟨m, hk, rfl⟩ := h.draws.exists_value (show (k, w) ∈ t.toList by
            simp [hl, List.mem_of_getLast? hlast])
          simp only [Option.map_some]
          rw [Operation.outcome_bind_ok (outcome_resolve hk)]
          show _ = match (if _ then _ else _ : Option IndexViolation) with
            | some violation => _
            | none => _
          by_cases hlt : keying.compare (keying.key m.value) (keying.key n.value) = .lt
          · rw [if_pos hlt, if_neg (not_not_intro hlt)]
            exact hnext
          · rw [if_neg hlt, if_pos hlt]
            rfl

/-- An audit of a linked index is that of the index it mirrors. -/
theorem Mirrors.audit (h : x.Mirrors ix) (hix : ix.Sound) (keying : Keying α κ) :
    (Linked.audit keying).outcome x =
      match Index.firstDisorder? keying ix.toList with
      | some violation => (.error violation, x)
      | none => (.ok (), x) := by
  have hsteps := size_le_cells (h.serves hix)
  have hsize : x.size = ix.tree.size := h.size_eq.trans hix.size_eq
  have hroot := h.shows.root_eq
  rw [Linked.audit, Operation.outcome_get_bind]
  cases htop : ix.tree.root? with
  | none =>
      have htree := Tree.eq_nil_of_root? htop
      rw [Index.toList, htree, hroot, htop]
      rw [htree] at hsize
      simp only [hsize]
      rfl
  | some root =>
      obtain ⟨n, hn, hparent, -⟩ := h.shows.draws.exists_root htop
      have hfrom := outcome_auditFrom h.shows.draws hix.balanced hsteps
      have horder := outcome_auditOrder keying h.shows hix.nodup hsteps
        (show ix.tree.toList = [] ++ ix.tree.toList from rfl)
        (show ix.tree.toList.length ≤ x.cells.size + 1 by rw [Tree.length_toList]; omega)
      rw [← Tree.first?_eq] at horder
      rw [hroot, htop]
      rw [htop] at hfrom
      simp only [hn, hparent, Option.isSome_none, Bool.false_eq_true, if_false]
      rw [Operation.outcome_bind_ok hfrom]
      simp only [hsize, ne_eq, not_true_eq_false, if_false]
      rw [Operation.outcome_bind_ok (outcome_last? .left h.shows hsteps)]
      exact horder

end Linked

end KernelMemory
