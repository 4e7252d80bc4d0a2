import KernelMemory.Extent.Map

/-!
# Listing by size

A map keeps the same fact in two places: an extent records the size class that lists it,
and the class lists the extent's handle. `SizeClasses.Lists` says that the two records
agree. Where the handle of one extent changes its class, only the two classes involved
change, which is what the lemmas below say of `link` and `unlink`.
-/

namespace KernelMemory

theorem sizeClass_lt {length : Nat} (h : length < Word.bound) : sizeClass length < 64 := by
  unfold sizeClass
  by_cases hz : length / Page.size = 0
  · rw [hz]
    decide
  · rw [Nat.log2_lt hz]
    exact Nat.lt_of_le_of_lt (Nat.div_le_self _ _) h

namespace Range

theorem contains_iff {r : Range} {address : Nat} :
    r.contains address = true ↔ r.start ≤ address ∧ address < r.stop := by
  simp [Range.contains]

theorem encloses_iff {r s : Range} :
    r.encloses s = true ↔ r.start ≤ s.start ∧ s.stop ≤ r.stop := by
  simp [Range.encloses]

theorem overlaps_iff {r s : Range} :
    r.overlaps s = true ↔ r.start < s.stop ∧ s.start < r.stop := by
  simp [Range.overlaps]

theorem overlaps_self (r : Range) : r.overlaps r = true :=
  overlaps_iff.mpr ⟨r.start_lt_stop, r.start_lt_stop⟩

theorem contains_of_encloses {r s : Range} {address : Nat} (h : r.encloses s = true)
    (hs : s.contains address = true) : r.contains address = true := by
  rw [encloses_iff] at h
  rw [contains_iff] at hs ⊢
  omega

theorem contains_start (r : Range) : r.contains r.start = true :=
  contains_iff.mpr ⟨Nat.le_refl _, r.start_lt_stop⟩

theorem length_lt_bound (r : Range) : r.length < Word.bound :=
  Nat.lt_of_le_of_lt (Nat.sub_le _ _) r.stop_lt_bound

end Range

namespace Extent

theorem start_lt_stop (e : Extent) : e.start < e.stop :=
  e.range.start_lt_stop

/-- The size class that ought to list an extent: the one of its length, if it is free. -/
def listing (e : Extent) : Option Nat :=
  if e.usage.isFree then some (sizeClass e.length) else none

def listed (e : Extent) : Extent :=
  { e with listedIn := e.listing }

@[simp] theorem range_listed (e : Extent) : e.listed.range = e.range := rfl

@[simp] theorem usage_listed (e : Extent) : e.listed.usage = e.usage := rfl

@[simp] theorem previous_listed (e : Extent) : e.listed.previous = e.previous := rfl

@[simp] theorem start_listed (e : Extent) : e.listed.start = e.start := rfl

@[simp] theorem stop_listed (e : Extent) : e.listed.stop = e.stop := rfl

@[simp] theorem listedIn_listed (e : Extent) : e.listed.listedIn = e.listed.listing := rfl

theorem listing_eq_some_iff {e : Extent} {index : Nat} :
    e.listing = some index ↔ e.usage = .free ∧ sizeClass e.length = index := by
  rw [listing, Option.ite_none_right_eq_some, Option.some_inj]
  exact and_congr_left' beq_iff_eq

theorem listing_lt {e : Extent} {index : Nat} (h : e.listing = some index) : index < 64 := by
  obtain ⟨-, rfl⟩ := listing_eq_some_iff.mp h
  exact sizeClass_lt e.range.length_lt_bound

end Extent

namespace SizeClasses

variable {s : SizeClasses} {index : Nat} {id : Handle}

theorem get_of_ge (s : SizeClasses) (h : 64 ≤ index) : s.get index = [] := by
  simp [get, Array.getD, Nat.not_lt.mpr h]

@[simp] theorem get_empty (index : Nat) : SizeClasses.empty.get index = [] := by
  unfold get SizeClasses.empty Array.getD
  split <;> simp

theorem get_alter (s : SizeClasses) (h : index < 64) (f : List Handle → List Handle)
    (other : Nat) :
    (s.alter index f).get other = if index = other then f (s.get index) else s.get other := by
  unfold alter
  rw [dif_pos h]
  by_cases ho : other < 64
  · by_cases he : index = other
    · subst he
      simp [get, Array.getD, h]
    · simp [get, Array.getD, ho, he]
  · have hne : index ≠ other := fun e => ho (e ▸ h)
    rw [get_of_ge _ (Nat.le_of_not_lt ho), get_of_ge _ (Nat.le_of_not_lt ho), if_neg hne]

/-- Every class lists the extents that record it, each once, and nothing else. -/
structure Lists (s : SizeClasses) (l : List (Handle × Extent)) : Prop where
  nodup : ∀ index, (s.get index).Nodup
  mem_iff : ∀ index id, id ∈ s.get index ↔ ∃ e, (id, e) ∈ l ∧ e.listedIn = some index

namespace Lists

variable {l l' : List (Handle × Extent)}

theorem empty : SizeClasses.empty.Lists [] where
  nodup index := by simp
  mem_iff index id := by simp

/-- Extents that no class lists may come and go. -/
theorem congr (h : s.Lists l)
    (hl : ∀ id e, e.listedIn.isSome → ((id, e) ∈ l' ↔ (id, e) ∈ l)) : s.Lists l' where
  nodup := h.nodup
  mem_iff index id := by
    rw [h.mem_iff]
    refine exists_congr fun e => and_congr_left ?_
    intro he
    exact (hl id e (by simp [he])).symm

theorem link (h : s.Lists l) {e : Extent} (he : e.listedIn = some index)
    (hindex : index < 64) (hfresh : ∀ x, (id, x) ∈ l → x.listedIn = none)
    (hl : ∀ x y, y.listedIn.isSome → ((x, y) ∈ l' ↔ (x, y) = (id, e) ∨ (x, y) ∈ l)) :
    (s.link index id).Lists l' := by
  have hout : ∀ other, id ∉ s.get other := by
    intro other hmem
    obtain ⟨x, hx, hlisted⟩ := (h.mem_iff other id).mp hmem
    simp [hfresh x hx] at hlisted
  constructor
  · intro other
    rw [SizeClasses.link, get_alter s hindex]
    split
    · exact List.nodup_cons.mpr ⟨hout index, h.nodup index⟩
    · exact h.nodup other
  · intro other x
    have hnew : (∃ y, (x, y) ∈ l' ∧ y.listedIn = some other) ↔
        (x = id ∧ index = other) ∨ ∃ y, (x, y) ∈ l ∧ y.listedIn = some other := by
      refine ⟨fun ⟨y, hy, ho⟩ => ?_, ?_⟩
      · rcases (hl x y (by simp [ho])).mp hy with heq | hmem
        · obtain ⟨rfl, rfl⟩ := Prod.mk.inj heq
          exact .inl ⟨rfl, Option.some.inj (he.symm.trans ho)⟩
        · exact .inr ⟨y, hmem, ho⟩
      · rintro (⟨rfl, rfl⟩ | ⟨y, hy, ho⟩)
        · exact ⟨e, (hl x e (by simp [he])).mpr (.inl rfl), he⟩
        · exact ⟨y, (hl x y (by simp [ho])).mpr (.inr hy), ho⟩
    rw [hnew, ← h.mem_iff, SizeClasses.link, get_alter s hindex]
    split
    · next heq => simp [heq]
    · next hne => simp [hne]

theorem unlink (h : s.Lists l) {e : Extent} (hmem : (id, e) ∈ l) (he : e.listedIn = some index)
    (hone : ∀ x, (id, x) ∈ l → x = e)
    (hl : ∀ x y, y.listedIn.isSome → ((x, y) ∈ l' ↔ x ≠ id ∧ (x, y) ∈ l)) :
    (s.unlink index id).Lists l' := by
  have hindex : index < 64 := by
    rcases Nat.lt_or_ge index 64 with hlt | hge
    · exact hlt
    · have := (h.mem_iff index id).mpr ⟨e, hmem, he⟩
      simp [get_of_ge s hge] at this
  constructor
  · intro other
    rw [SizeClasses.unlink, get_alter s hindex]
    split
    · exact (h.nodup index).erase id
    · exact h.nodup other
  · intro other x
    have hrest : (∃ y, (x, y) ∈ l' ∧ y.listedIn = some other) ↔ x ≠ id ∧ x ∈ s.get other := by
      rw [h.mem_iff]
      refine ⟨fun ⟨y, hy, ho⟩ => ?_, fun ⟨hne, y, hy, ho⟩ => ?_⟩
      · obtain ⟨hne, hmem⟩ := (hl x y (by simp [ho])).mp hy
        exact ⟨hne, y, hmem, ho⟩
      · exact ⟨y, (hl x y (by simp [ho])).mpr ⟨hne, hy⟩, ho⟩
    rw [hrest, SizeClasses.unlink, get_alter s hindex]
    split
    · next heq =>
      subst heq
      rw [(h.nodup index).mem_erase_iff]
    · next hne =>
      refine ⟨fun hx => ⟨fun heq => hne ?_, hx⟩, And.right⟩
      subst heq
      obtain ⟨y, hy, ho⟩ := (h.mem_iff other x).mp hx
      rw [hone y hy, he] at ho
      exact Option.some.inj ho

end Lists

end SizeClasses

end KernelMemory
