import KernelMemory.Extent.Linked
import KernelMemory.Proofs.Extent.Sound
import KernelMemory.Proofs.Index.Map

/-!
# The links of a size class

A list of handles is threaded through a map if each extent in it links to its neighbours in
the list: back to the one before it, on to the one after it. Putting an extent in front of a
threaded list changes two links, taking one out of it at most two besides its own, whether it
is first, last, or in the middle. All other threaded lists keep their links, because no
extent is in two of them.
-/

namespace KernelMemory

namespace Index

variable {α β : Type}

/-- Changes the value that a link leads to, if there is one. -/
def modifyBehind (ix : Index α) (link : Option Handle) (g : α → α) : Index α :=
  match link with
  | none => ix
  | some id => ix.modify id g

theorem Sound.modifyBehind {ix : Index α} (h : ix.Sound) (link : Option Handle) (g : α → α) :
    (ix.modifyBehind link g).Sound := by
  cases link with
  | none => exact h
  | some id => exact h.modify id g

@[simp] theorem slots_modifyBehind (ix : Index α) (link : Option Handle) (g : α → α) :
    (ix.modifyBehind link g).slots = ix.slots := by
  cases link with
  | none => rfl
  | some id => exact slots_modify ix id g

theorem get?_modifyBehind (ix : Index α) (link : Option Handle) (k : Handle) (g : α → α) :
    (ix.modifyBehind link g).get? k = if link = some k then (ix.get? k).map g else ix.get? k := by
  cases link with
  | none => rfl
  | some id =>
      rw [modifyBehind, get?_modify]
      by_cases hk : k = id
      · rw [if_pos hk, if_pos (by rw [hk]), hk]
      · rw [if_neg hk, if_neg fun h => hk (Option.some.inj h).symm]

theorem map_modifyBehind_self {f : α → β} {ix : Index α} (hn : (ix.map f).tree.handles.Nodup)
    {link : Option Handle} {g : α → α} (hg : ∀ v, f (g v) = f v) :
    (ix.modifyBehind link g).map f = ix.map f := by
  cases link with
  | none => rfl
  | some id => exact map_modify_self f (by rwa [map, Tree.handles_map] at hn) id hg

end Index

namespace LinkedMap

variable {x x' : LinkedMap} {l pre post : List Handle} {id : Handle}

/-- The extents of a list link to their neighbours in it, both ways. -/
def Threads (x : LinkedMap) (l : List Handle) : Prop :=
  ∀ pre id post, l = pre ++ id :: post →
    ∃ e, x.get? id = some e ∧ e.before = pre.getLast? ∧ e.after = post.head?

namespace Threads

theorem nil (x : LinkedMap) : x.Threads [] := by
  intro pre id post h
  simp at h

/-- A list stays threaded as long as the links of its extents stay. -/
theorem congr (h : x.Threads l) (hx : ∀ k ∈ l, ∀ e, x.get? k = some e →
    ∃ e', x'.get? k = some e' ∧ e'.before = e.before ∧ e'.after = e.after) : x'.Threads l := by
  rintro pre k post rfl
  obtain ⟨e, he, hbefore, hafter⟩ := h pre k post rfl
  obtain ⟨e', he', hbefore', hafter'⟩ := hx k (by simp) e he
  exact ⟨e', he', hbefore'.trans hbefore, hafter'.trans hafter⟩

/-- In front of a list: only the extent that was first gets another link. -/
theorem cons (h : x.Threads l) (hn : l.Nodup)
    (hid : ∃ e, x'.get? id = some e ∧ e.before = none ∧ e.after = l.head?)
    (hx : ∀ k ∈ l, ∀ e, x.get? k = some e → ∃ e', x'.get? k = some e' ∧
      e'.before = (if l.head? = some k then some id else e.before) ∧ e'.after = e.after) :
    x'.Threads (id :: l) := by
  intro pre k post hsplit
  cases pre with
  | nil =>
      obtain ⟨rfl, rfl⟩ := List.cons.inj hsplit
      exact hid
  | cons a pre =>
      obtain ⟨rfl, rfl⟩ := List.cons.inj hsplit
      obtain ⟨e, he, hbefore, hafter⟩ := h pre k post rfl
      obtain ⟨e', he', hbefore', hafter'⟩ := hx k (by simp) e he
      refine ⟨e', he', ?_, hafter'.trans hafter⟩
      cases pre with
      | nil => simpa using hbefore'
      | cons b pre =>
          have hne : b ≠ k := fun e => by simp [e] at hn
          rw [if_neg (by simpa using hne), hbefore] at hbefore'
          rw [hbefore', List.getLast?_cons_cons]

section Erase

variable (h : x.Threads (pre ++ id :: post)) (hn : (pre ++ id :: post).Nodup)
  (hx : ∀ k ∈ pre ++ post, ∀ e, x.get? k = some e → ∃ e', x'.get? k = some e' ∧
    e'.before = (if post.head? = some k then pre.getLast? else e.before) ∧
    e'.after = if pre.getLast? = some k then post.head? else e.after)
include h hn hx

omit h hx in
theorem not_mem_of_mem {k : Handle} (hpre : k ∈ pre) : k ∉ post := by
  intro hpost
  rw [List.nodup_append] at hn
  exact hn.2.2 k hpre k (List.mem_cons_of_mem _ hpost) rfl

/-- An extent behind the one taken out has another link at most to the extent before it. -/
theorem erase_behind {mid back : List Handle} {k : Handle} (hpost : post = mid ++ k :: back) :
    ∃ e, x'.get? k = some e ∧ e.before = (pre ++ mid).getLast? ∧ e.after = back.head? := by
  subst hpost
  obtain ⟨e, he, hbefore, hafter⟩ := h (pre ++ id :: mid) k back (by simp)
  obtain ⟨e', he', hbefore', hafter'⟩ := hx k (by simp) e he
  rw [if_neg fun hlast => not_mem_of_mem hn (List.mem_of_getLast? hlast) (by simp),
    hafter] at hafter'
  refine ⟨e', he', ?_, hafter'⟩
  cases mid with
  | nil => simpa using hbefore'
  | cons a mid =>
      have hne : a ≠ k := fun e => by simp [e, List.nodup_append] at hn
      rw [if_neg (by simpa using hne), hbefore] at hbefore'
      rw [hbefore']
      simp

/-- An extent in front of it has another link at most to the extent behind it. -/
theorem erase_before {front mid : List Handle} {k : Handle} (hpre : pre = front ++ k :: mid) :
    ∃ e, x'.get? k = some e ∧ e.before = front.getLast? ∧ e.after = (mid ++ post).head? := by
  subst hpre
  obtain ⟨e, he, hbefore, hafter⟩ := h front k (mid ++ id :: post) (by simp)
  obtain ⟨e', he', hbefore', hafter'⟩ := hx k (by simp) e he
  rw [if_neg fun hfirst => not_mem_of_mem hn (by simp) (List.mem_of_head? hfirst),
    hbefore] at hbefore'
  refine ⟨e', he', hbefore', ?_⟩
  cases mid with
  | nil => simpa using hafter'
  | cons b mid =>
      have hne : k ∉ b :: mid := fun hk => by
        simp only [List.append_assoc, List.cons_append, List.nodup_append,
          List.nodup_cons] at hn
        exact hn.2.1.1 (by
          rw [List.mem_cons] at hk ⊢
          exact hk.imp_right (List.mem_append_left _))
      rw [if_neg fun hlast => hne (List.mem_of_getLast? (by simpa using hlast)),
        hafter] at hafter'
      rw [hafter']
      simp

/-- Out of a list: the neighbours of the extent get each other's handles for links. -/
theorem erase : x'.Threads (pre ++ post) := by
  intro front k back hsplit
  rcases List.append_eq_append_iff.mp hsplit with ⟨mid, rfl, hpost⟩ | ⟨mid, hpre, hback⟩
  · exact erase_behind h hn hx hpost
  · cases mid with
    | nil =>
        rw [List.append_nil] at hpre
        have hpost : post = [] ++ k :: back := by simpa using hback.symm
        rw [← hpre]
        simpa using erase_behind h hn hx hpost
    | cons a mid =>
        obtain ⟨rfl, rfl⟩ := List.cons.inj hback
        exact erase_before h hn hx hpre

end Erase

end Threads

/-! ## Parts of a map -/

section Parts

variable {index : Nat}

@[simp] theorem index_withIndex (x : LinkedMap) (ix : Index LinkedExtent) :
    (x.withIndex ix).index = ix := rfl

@[simp] theorem classOf_withIndex (x : LinkedMap) (ix : Index LinkedExtent) (index : Nat) :
    (x.withIndex ix).classOf index = x.classOf index := rfl

@[simp] theorem index_withClass (x : LinkedMap) (index : Nat) (c : LinkedClass) :
    (x.withClass index c).index = x.index := rfl

@[simp] theorem classOf_withClass (x : LinkedMap) (hindex : index < SizeClasses.count)
    (c : LinkedClass) (other : Nat) :
    (x.withClass index c).classOf other = if index = other then c else x.classOf other := by
  simp only [classOf, withClass, Array.getD_eq_getD_getElem?, Vector.getElem?_toArray,
    Vector.getElem?_setIfInBounds]
  split
  · next h => rw [if_pos (show index < 64 from hindex), Option.getD_some]
  · rfl

theorem withClass_withClass (x : LinkedMap) (index : Nat) (c c' : LinkedClass) :
    (x.withClass index c).withClass index c' = x.withClass index c' := by
  simp only [withClass, Vector.setIfInBounds_setIfInBounds]

theorem withIndex_withClass (x : LinkedMap) (index : Nat) (c : LinkedClass)
    (ix : Index LinkedExtent) :
    (x.withClass index c).withIndex ix = (x.withIndex ix).withClass index c := rfl

theorem outcome_classAt (x : LinkedMap) (hindex : index < SizeClasses.count) :
    (classAt index).outcome x = (.ok (x.classOf index), x) := by
  rw [classAt, Operation.outcome_get_bind, if_pos hindex, Operation.outcome_pure]

theorem outcome_alterBehind (x : LinkedMap) (link : Option Handle)
    (g : LinkedExtent → LinkedExtent) :
    (alterBehind link g).outcome x = (.ok (), x.withIndex (x.index.modifyBehind link g)) := by
  cases link <;> rfl

end Parts

/-! ## Unlinking and linking -/

section Steps

variable {e : LinkedExtent} {index : Nat} {k : Handle}

/-- What unlinking an extent from a class makes of the index. -/
def unlinkedIndex (x : LinkedMap) (id : Handle) (e : LinkedExtent) : Index LinkedExtent :=
  ((x.index.modify id fun e => ⟨{ e.extent with listedIn := none }, none, none⟩)
    |>.modifyBehind e.before fun p => { p with after := e.after })
    |>.modifyBehind e.after fun n => { n with before := e.before }

/-- What unlinking an extent from a class makes of a map. -/
def unlinked (x : LinkedMap) (id : Handle) (e : LinkedExtent) (index : Nat) : LinkedMap :=
  (x.withIndex (x.unlinkedIndex id e)).withClass index
    ⟨if e.before = none then e.after else (x.classOf index).head, (x.classOf index).size - 1⟩

theorem outcome_delist (hget : x.get? id = some e) (hlisted : e.extent.listedIn = some index)
    (hindex : index < SizeClasses.count) (hsize : 1 ≤ (x.classOf index).size) :
    (delist id).outcome x = (.ok (), x.unlinked id e index) := by
  rw [delist, Operation.outcome_get_bind]
  simp only [hget, hlisted]
  rw [alter, Operation.outcome_modify_bind]
  unfold unlinked unlinkedIndex
  cases e.before with
  | none =>
      rw [bridge, bind_assoc, Operation.outcome_bind_ok (outcome_classAt _ hindex), setClass,
        Operation.outcome_modify_bind, Operation.outcome_bind_ok (outcome_alterBehind _ _ _),
        Operation.outcome_bind_ok (outcome_classAt _ hindex)]
      simp only [classOf_withIndex, classOf_withClass _ hindex, if_true]
      rw [Operation.outcome_bind_ok (Operation.outcome_difference hsize _), setClass,
        Operation.outcome_modify, withIndex_withClass, withClass_withClass]
      rfl
  | some before =>
      rw [bridge, alter, Operation.outcome_modify_bind,
        Operation.outcome_bind_ok (outcome_alterBehind _ _ _),
        Operation.outcome_bind_ok (outcome_classAt _ hindex)]
      simp only [classOf_withIndex]
      rw [Operation.outcome_bind_ok (Operation.outcome_difference hsize _), setClass,
        Operation.outcome_modify]
      rfl

/-- What linking an extent in front of a class makes of the index. -/
def linkedIndex (x : LinkedMap) (id : Handle) (index : Nat) (head : Option Handle) :
    Index LinkedExtent :=
  ((x.index.modify id fun e => { e with before := none })
    |>.modify id fun e =>
      { e with extent := { e.extent with listedIn := some index }, after := head })
    |>.modifyBehind head fun n => { n with before := some id }

/-- What linking an extent in front of a class makes of a map. -/
def linked (x : LinkedMap) (id : Handle) (index : Nat) : LinkedMap :=
  (x.withIndex (x.linkedIndex id index (x.classOf index).head)).withClass index
    ⟨some id, (x.classOf index).size + 1⟩

theorem outcome_list_of_free (hget : x.get? id = some e) (hfree : e.extent.usage.isFree = true)
    (hsize : (x.classOf (sizeClass e.extent.length)).size + 1 < Word.bound) :
    (list id).outcome x = (.ok (), x.linked id (sizeClass e.extent.length)) := by
  have hindex : sizeClass e.extent.length < SizeClasses.count :=
    sizeClass_lt e.extent.range.length_lt_bound
  rw [list, Operation.outcome_get_bind]
  simp only [extent?, hget, Option.map_some, hfree, if_true]
  rw [alter, Operation.outcome_modify_bind, Operation.outcome_bind_ok (outcome_classAt _ hindex),
    alter, Operation.outcome_modify_bind, Operation.outcome_bind_ok (outcome_alterBehind _ _ _),
    setClass, Operation.outcome_modify_bind]
  simp only [classOf_withIndex]
  rw [Operation.outcome_bind_ok (Operation.outcome_sum hsize _), setClass,
    Operation.outcome_modify, withClass_withClass]
  rfl

/-- What is left of the links of an extent that is in use. -/
def loosened (x : LinkedMap) (id : Handle) : LinkedMap :=
  x.withIndex ((x.index.modify id fun e => { e with before := none }).modify id fun e =>
    { e with extent := { e.extent with listedIn := none }, after := none })

theorem outcome_list_of_used (hget : x.get? id = some e)
    (hused : e.extent.usage.isFree = false) : (list id).outcome x = (.ok (), x.loosened id) := by
  rw [list, Operation.outcome_get_bind]
  simp only [extent?, hget, Option.map_some, hused, Bool.false_eq_true, if_false]
  rfl

/-! ## What an extent is afterwards -/

theorem get?_unlinked_self (hget : x.get? id = some e) (hbefore : e.before ≠ some id)
    (hafter : e.after ≠ some id) :
    (x.unlinked id e index).get? id = some ⟨{ e.extent with listedIn := none }, none, none⟩ := by
  have hget' : x.index.get? id = some e := hget
  simp only [unlinked, unlinkedIndex, get?, index_withClass, index_withIndex,
    Index.get?_modifyBehind, Index.get?_modify, hget', if_neg hbefore, if_neg hafter, if_true,
    Option.map_some]

theorem get?_unlinked_of_ne (hk : k ≠ id) :
    (x.unlinked id e index).get? k = (x.get? k).map fun d =>
      ⟨d.extent, if e.after = some k then e.before else d.before,
        if e.before = some k then e.after else d.after⟩ := by
  simp only [unlinked, unlinkedIndex, get?, index_withClass, index_withIndex,
    Index.get?_modifyBehind, Index.get?_modify, if_neg hk]
  split <;> split <;> cases x.index.get? k <;> rfl

theorem get?_linked_self (hget : x.get? id = some e) (hhead : (x.classOf index).head ≠ some id) :
    (x.linked id index).get? id =
      some ⟨{ e.extent with listedIn := some index }, none, (x.classOf index).head⟩ := by
  have hget' : x.index.get? id = some e := hget
  simp only [linked, linkedIndex, get?, index_withClass, index_withIndex,
    Index.get?_modifyBehind, Index.get?_modify, hget', if_neg hhead, if_true, Option.map_some]

theorem get?_linked_of_ne (hk : k ≠ id) :
    (x.linked id index).get? k = (x.get? k).map fun d =>
      { d with before := if (x.classOf index).head = some k then some id else d.before } := by
  simp only [linked, linkedIndex, get?, index_withClass, index_withIndex,
    Index.get?_modifyBehind, Index.get?_modify, if_neg hk]
  split <;> cases x.index.get? k <;> rfl

end Steps

end LinkedMap

end KernelMemory
