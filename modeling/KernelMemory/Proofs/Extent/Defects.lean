import KernelMemory.Proofs.Extent.Classes
import KernelMemory.Proofs.Extent.Partition
import KernelMemory.Proofs.Linked.Layout

/-!
# The first defect of an extent map

Single extents may be inserted and deleted without regard to their neighbours, so a map that
calls of every kind reach may have holes and twins. What an audit says of such a map is said
here without the audit: each place in the row of extents, from the start of the region to its
end, has at most one defect, and the audit reports that of the first place that has one.

The rest of an audit is in vain. The index and the size classes are in order whatever was
called, also as they lie in memory: the links of the tree, and those that run through the
extents of a class.
-/

namespace KernelMemory

/-! ## Places -/

namespace ExtentMap

/-- The extent at `i` and the one behind it do not meet, or should have been merged. -/
inductive Clash (l : List Extent) : Nat → ExtentViolation → Prop
  | hole {i : Nat} {e d : Extent} (he : l[i]? = some e) (hd : l[i + 1]? = some d)
      (hgap : e.stop ≠ d.start) : Clash l i (.notContiguous e.range d.range)
  | twins {i : Nat} {e d : Extent} (he : l[i]? = some e) (hd : l[i + 1]? = some d)
      (hmeet : e.stop = d.start) (hsame : e.usage = d.usage) :
      Clash l i (.unmerged e.range d.range d.usage)

/-- What is wrong with a row of extents in front of the one at a place, or behind all of
them. -/
inductive DefectAt (region : Range) (l : List Extent) : Nat → ExtentViolation → Prop
  | empty (hl : l = []) : DefectAt region l 0 .empty
  | badStart {e : Extent} (he : l[0]? = some e) (hne : e.start ≠ region.start) :
      DefectAt region l 0 (.badStart region.start e.start)
  | clash {i : Nat} {v : ExtentViolation} (h : Clash l i v) : DefectAt region l (i + 1) v
  | badStop {i : Nat} {e : Extent} (he : l[i]? = some e) (hlast : i + 1 = l.length)
      (hne : e.stop ≠ region.stop) : DefectAt region l (i + 1) (.badStop region.stop e.stop)

/-- The defect of the first place that has one. -/
def FirstDefect (region : Range) (l : List Extent) (v : ExtentViolation) : Prop :=
  ∃ i, DefectAt region l i v ∧ ∀ j < i, ∀ w, ¬ DefectAt region l j w

section Places

variable {region : Range} {l : List Extent} {p q : Extent} {i : Nat} {v w : ExtentViolation}

theorem Clash.succ_lt_length (h : Clash l i v) : i + 1 < l.length := by
  cases h with
  | hole _ hd => exact (List.getElem?_eq_some_iff.mp hd).1
  | twins _ hd => exact (List.getElem?_eq_some_iff.mp hd).1

theorem Clash.unique (h : Clash l i v) (h' : Clash l i w) : v = w := by
  cases h with
  | hole he hd hgap =>
      cases h' with
      | hole he' hd' =>
          obtain rfl := Option.some.inj (he.symm.trans he')
          obtain rfl := Option.some.inj (hd.symm.trans hd')
          rfl
      | twins he' hd' hmeet =>
          obtain rfl := Option.some.inj (he.symm.trans he')
          obtain rfl := Option.some.inj (hd.symm.trans hd')
          exact absurd hmeet hgap
  | twins he hd hmeet =>
      cases h' with
      | hole he' hd' hgap =>
          obtain rfl := Option.some.inj (he.symm.trans he')
          obtain rfl := Option.some.inj (hd.symm.trans hd')
          exact absurd hmeet hgap
      | twins he' hd' =>
          obtain rfl := Option.some.inj (he.symm.trans he')
          obtain rfl := Option.some.inj (hd.symm.trans hd')
          rfl

theorem DefectAt.unique (h : DefectAt region l i v) (h' : DefectAt region l i w) : v = w := by
  cases h with
  | empty hl =>
      cases h' with
      | empty => rfl
      | badStart he => simp [hl] at he
  | badStart he =>
      cases h' with
      | empty hl => simp [hl] at he
      | badStart he' =>
          obtain rfl := Option.some.inj (he.symm.trans he')
          rfl
  | clash h =>
      cases h' with
      | clash h' => exact h.unique h'
      | badStop _ hlast => exact absurd hlast (Nat.ne_of_lt h.succ_lt_length)
  | badStop he hlast =>
      cases h' with
      | clash h' => exact absurd hlast (Nat.ne_of_lt h'.succ_lt_length)
      | badStop he' =>
          obtain rfl := Option.some.inj (he.symm.trans he')
          rfl

theorem FirstDefect.unique (h : FirstDefect region l v) (h' : FirstDefect region l w) :
    v = w := by
  obtain ⟨i, hi, hbefore⟩ := h
  obtain ⟨j, hj, hbefore'⟩ := h'
  rcases Nat.lt_trichotomy i j with hlt | rfl | hlt
  · exact absurd hi (hbefore' i hlt v)
  · exact hi.unique hj
  · exact absurd hj (hbefore j hlt w)

theorem clash_cons_succ_iff : Clash (p :: l) (i + 1) v ↔ Clash l i v := by
  constructor
  · rintro (⟨he, hd, hgap⟩ | ⟨he, hd, hmeet, hsame⟩)
    · exact .hole he hd hgap
    · exact .twins he hd hmeet hsame
  · rintro (⟨he, hd, hgap⟩ | ⟨he, hd, hmeet, hsame⟩)
    · exact .hole he hd hgap
    · exact .twins he hd hmeet hsame

theorem not_clash_singleton : ¬ Clash [p] i v := fun h =>
  absurd h.succ_lt_length (by simp)

theorem not_clash_zero (hmeet : p.stop = q.start) (hdiffer : p.usage ≠ q.usage) :
    ¬ Clash (p :: q :: l) 0 v := by
  rintro (⟨⟨⟩, ⟨⟩, hgap⟩ | ⟨⟨⟩, ⟨⟩, -, hsame⟩)
  · exact hgap hmeet
  · exact hdiffer hsame

/-! ## What an audit finds there -/

/-- A tiling that passes has no clash anywhere, and reaches as far as its last extent. -/
theorem not_clash_of_auditTiling {stop : Nat} (h : auditTiling p l = .ok stop) :
    (∀ i v, ¬ Clash (p :: l) i v) ∧ ∃ e, (p :: l)[l.length]? = some e ∧ e.stop = stop := by
  induction l generalizing p with
  | nil =>
      obtain rfl := Except.ok.inj h
      exact ⟨fun _ _ => not_clash_singleton, p, rfl, rfl⟩
  | cons q l ih =>
      rw [auditTiling] at h
      split at h
      · cases h
      · next hmeet =>
        split at h
        · cases h
        · next hdiffer =>
          obtain ⟨hnone, e, he, hstop⟩ := ih h
          refine ⟨fun i v => ?_, e, he, hstop⟩
          cases i with
          | zero => exact not_clash_zero (Decidable.not_not.mp hmeet) hdiffer
          | succ i => exact fun hclash => hnone i v (clash_cons_succ_iff.mp hclash)

/-- A tiling that does not pass fails at its first clash: by induction on the extents that
are left, each of which meets the one before it. -/
theorem clash_of_auditTiling (h : auditTiling p l = .error v) :
    ∃ i, Clash (p :: l) i v ∧ ∀ j < i, ∀ w, ¬ Clash (p :: l) j w := by
  induction l generalizing p with
  | nil => cases h
  | cons q l ih =>
      rw [auditTiling] at h
      split at h
      · next hgap =>
        obtain rfl := Except.error.inj h
        exact ⟨0, .hole rfl rfl hgap, fun _ hlt => absurd hlt (Nat.not_lt_zero _)⟩
      · next hmeet =>
        rw [Decidable.not_not] at hmeet
        split at h
        · next hsame =>
          obtain rfl := Except.error.inj h
          exact ⟨0, .twins rfl rfl hmeet hsame, fun _ hlt => absurd hlt (Nat.not_lt_zero _)⟩
        · next hdiffer =>
          obtain ⟨i, hclash, hbefore⟩ := ih h
          refine ⟨i + 1, clash_cons_succ_iff.mpr hclash, fun j hlt w => ?_⟩
          cases j with
          | zero => exact not_clash_zero hmeet hdiffer
          | succ j =>
              rw [clash_cons_succ_iff]
              exact hbefore j (Nat.lt_of_succ_lt_succ hlt) w

theorem not_defectAt_zero (hstart : p.start = region.start) :
    ¬ DefectAt region (p :: l) 0 v := by
  rintro (⟨⟨⟩⟩ | ⟨⟨⟩, hne⟩)
  exact hne hstart

theorem not_defectAt_of_auditPartition (h : auditPartition region l = .ok ()) :
    ¬ DefectAt region l i v := by
  cases l with
  | nil => cases h
  | cons p l =>
      rw [auditPartition] at h
      split at h
      · cases h
      · next hstart =>
        obtain ⟨stop, htiling, hstop⟩ := bind_eq_ok_iff.mp h
        obtain ⟨hnone, e, he, rfl⟩ := not_clash_of_auditTiling htiling
        rintro (hdefect | ⟨⟨⟩, hne⟩ | hclash | ⟨hlast, hlength, hne⟩)
        · cases hdefect
        · exact hstart hne
        · exact hnone _ _ hclash
        · obtain rfl := Nat.succ.inj hlength
          obtain rfl := Option.some.inj (hlast.symm.trans he)
          rw [if_pos hne] at hstop
          cases hstop

theorem firstDefect_of_auditPartition (h : auditPartition region l = .error v) :
    FirstDefect region l v := by
  cases l with
  | nil =>
      obtain rfl := Except.error.inj h
      exact ⟨0, .empty rfl, fun _ hlt => absurd hlt (Nat.not_lt_zero _)⟩
  | cons p l =>
      rw [auditPartition] at h
      split at h
      · next hstart =>
        obtain rfl := Except.error.inj h
        exact ⟨0, .badStart rfl hstart, fun _ hlt => absurd hlt (Nat.not_lt_zero _)⟩
      · next hstart =>
        rw [Decidable.not_not] at hstart
        cases htiling : auditTiling p l with
        | error w =>
            rw [htiling] at h
            obtain rfl := Except.error.inj h
            obtain ⟨i, hclash, hbefore⟩ := clash_of_auditTiling htiling
            refine ⟨i + 1, .clash hclash, fun j hlt w hdefect => ?_⟩
            cases hdefect with
            | empty hl => cases hl
            | badStart he hne => exact not_defectAt_zero hstart (.badStart he hne)
            | clash hclash' => exact hbefore _ (Nat.lt_of_succ_lt_succ hlt) w hclash'
            | badStop _ hlast =>
                have := hclash.succ_lt_length
                omega
        | ok stop =>
            rw [htiling] at h
            obtain ⟨hnone, e, he, rfl⟩ := not_clash_of_auditTiling htiling
            change (if e.stop ≠ region.stop then _ else _) = _ at h
            split at h
            · next hstop =>
              obtain rfl := Except.error.inj h
              refine ⟨l.length + 1, .badStop he rfl hstop, fun j hlt w hdefect => ?_⟩
              cases hdefect with
              | empty hl => cases hl
              | badStart he hne => exact not_defectAt_zero hstart (.badStart he hne)
              | clash hclash => exact hnone _ _ hclash
              | badStop _ hlast =>
                  rw [List.length_cons] at hlast
                  omega
            · cases h

theorem auditPartition_eq_error_iff :
    auditPartition region l = .error v ↔ FirstDefect region l v := by
  refine ⟨firstDefect_of_auditPartition, fun h => ?_⟩
  cases haudit : auditPartition region l with
  | ok _ =>
      obtain ⟨i, hdefect, -⟩ := h
      exact absurd hdefect (not_defectAt_of_auditPartition haudit)
  | error w => rw [(firstDefect_of_auditPartition haudit).unique h]

end Places

end ExtentMap

/-! ## The audit in memory -/

namespace LinkedMap

/-- The index can be laid out in links, and however it is, no audit that follows them finds a
defect. -/
def IndexInOrder (x : LinkedMap) : Prop :=
  (∃ l : Linked LinkedExtent, l.Mirrors x.index) ∧ ∀ l : Linked LinkedExtent,
    l.Mirrors x.index → (Linked.audit LinkedExtent.keying).outcome l = (.ok (), l)

namespace Mirrors

variable {x : LinkedMap} {m : ExtentMap} {index : Nat}

theorem extents_eq (h : x.Mirrors m) : x.extents = m.extents := by
  rw [ExtentMap.extents, ExtentMap.toList, ← h.index_eq, Index.toList_map, List.map_map]
  rfl

theorem firstDisorder?_eq_none (h : x.Mirrors m) (hm : m.Sound) :
    Index.firstDisorder? LinkedExtent.keying x.toList = none := by
  have hchain := Index.firstDisorder?_eq_none_iff.mp hm.ordered.firstDisorder?_eq_none
  rw [ExtentMap.toList, ← h.index_eq, Index.toList_map, List.isChain_map] at hchain
  exact Index.firstDisorder?_eq_none_iff.mpr hchain

theorem indexInOrder (h : x.Mirrors m) (hm : m.Sound) : x.IndexInOrder := by
  refine ⟨Linked.exists_mirrors h.sound, fun l hl => ?_⟩
  rw [hl.audit h.sound LinkedExtent.keying]
  simp only [show Index.firstDisorder? LinkedExtent.keying x.index.toList = none from
    h.firstDisorder?_eq_none hm]

/-- From any place in the list of a class on, the audit counts the rest of it. -/
theorem auditMembers_eq (h : x.Mirrors m) (hm : m.Sound) {pre l : List Handle} {room : Nat}
    (hclass : m.classes.get index = pre ++ l) (hroom : l.length ≤ room) :
    x.auditMembers index room pre.getLast? l.head? = .ok l.length := by
  induction l generalizing pre room with
  | nil => cases room <;> rfl
  | cons id l ih =>
      obtain ⟨room, rfl⟩ : ∃ n, room = n + 1 := Nat.exists_eq_add_one.mpr (by
        rw [List.length_cons] at hroom
        omega)
      obtain ⟨e, hget, hbefore, hafter⟩ := h.threads index pre id l hclass
      have hlisted : e.extent.listedIn = some index := by
        obtain ⟨d, hget', hlisted⟩ := h.mem_class_iff.mp (show id ∈ m.classes.get index by
          simp [hclass])
        obtain rfl := Option.some.inj (hget.symm.trans hget')
        exact hlisted
      have hmem : (id, e) ∈ x.toList := h.sound.get?_eq_some_iff.mp hget
      have hexpected := ((h.listedIn_eq_iff hm hmem).mp hlisted).2
      have hrest : x.auditMembers index room (pre ++ [id]).getLast? l.head? = .ok l.length :=
        ih (by simp [hclass]) (Nat.le_of_succ_le_succ hroom)
      rw [List.getLast?_concat] at hrest
      rw [auditMembers]
      simp only [List.head?_cons, Option.bind_some, hget, Option.map_some]
      rw [if_neg (not_not_intro hbefore), if_neg (not_not_intro ⟨hlisted, hexpected⟩), hafter,
        hrest]
      rfl

theorem auditClass_eq (h : x.Mirrors m) (hm : m.Sound) (hindex : index < SizeClasses.count) :
    x.auditClass index = .ok (m.memberCount index) := by
  have hmembers := h.auditMembers_eq hm (List.nil_append (m.classes.get index)).symm
    (h.length_class_le_size index)
  have hclass := h.class_eq index hindex
  have hcount : x.memberCount index = (m.classes.get index).length := by
    rw [memberCount, hclass]
  rw [auditClass, hclass]
  refine bind_eq_ok_iff.mpr ⟨_, hmembers, ?_⟩
  rw [if_neg (not_not_intro hcount.symm)]
  rfl

/-- With all its links, the audit comes down to that of the partition, too. -/
theorem audit_eq (h : x.Mirrors m) (hm : m.Sound) : x.audit = m.audit := by
  rw [hm.audit_eq, audit, h.sound.audit_eq (h.firstDisorder?_eq_none hm), h.region_eq,
    h.extents_eq]
  simp only
  cases hpartition : ExtentMap.auditPartition m.region m.extents with
  | error violation => rfl
  | ok _ =>
      refine bind_eq_ok_iff.mpr ⟨(), rfl, bind_eq_ok_iff.mpr ⟨(), forM_eq_ok_iff.mpr ?_,
        bind_eq_ok_iff.mpr ⟨_, mapM_eq_ok fun index hindex =>
          h.auditClass_eq hm (List.mem_range.mp hindex), ?_⟩⟩⟩
      · intro e he
        obtain ⟨p, hp, rfl⟩ := List.mem_map.mp he
        exact hm.auditMembership_eq hp
      · exact if_neg (not_not_intro hm.sum_memberCount)

end Mirrors

end LinkedMap

/-! ## The region -/

namespace ExtentMap

open Operation (Fixes)

theorem fixes_note (level : Level) (text : String) : (note level text).Fixes region :=
  .bind .get fun _ => .note level _

theorem fixes_broken {α : Type} (cause : Breakage) :
    (broken cause : ExtentOperation α).Fixes region :=
  .bind .get fun _ => .crash _

theorem fixes_onIndex {ε α : Type} (op : Operation (Index Extent) ε α) :
    (onIndex op).Fixes region := fun _ => rfl

theorem fixes_place (e : Extent) (cause : IndexError → Breakage) :
    (place e cause).Fixes region := by
  refine .bind (.attempt (fixes_onIndex _)) fun placed => ?_
  cases placed with
  | ok id => exact .bind (.modify fun m => (sameFrame_list m id).region_eq) fun _ => .pure id
  | error error => exact fixes_broken _

theorem fixes_displace (id : Handle) : (displace id).Fixes region := by
  refine .bind (.modify fun m => (sameFrame_delist m id).region_eq) fun _ => ?_
  refine .bind (.attempt (fixes_onIndex _)) fun removed => ?_
  cases removed with
  | ok e => exact .pure e
  | error error => exact fixes_broken _

theorem fixes_change (id : Handle) (f : Extent → Extent) :
    (Operation.modify fun m => ((m.delist id).modify id f).list id :
      ExtentOperation Unit).Fixes region :=
  .modify fun m => (((sameFrame_delist m id).trans (sameFrame_modify _ id f)).trans
    (sameFrame_list _ id)).region_eq

theorem fixes_mergeUpTo (fuel : Nat) (id : Handle) : (mergeUpTo fuel id).Fixes region := by
  induction fuel generalizing id with
  | zero => exact .pure id
  | succ fuel ih =>
      have hresolve : (resolve id).Fixes region := by
        refine .bind .get fun m => ?_
        cases m.get? id with
        | none => exact fixes_broken _
        | some e => exact .pure e
      refine .bind hresolve fun e => .bind .get fun m => ?_
      rcases (m.leftTwin? id e).or (m.rightTwin? id e) with _ | ⟨other, joined⟩
      · exact .pure id
      · refine .bind ?_ fun _ => ih id
        exact .bind (fixes_displace other) fun _ => .bind (fixes_change id _) fun _ =>
          fixes_note _ _

theorem fixes_mergeAround (id : Handle) : (mergeAround id).Fixes region :=
  .bind .get fun _ => fixes_mergeUpTo _ id

theorem fixes_carve (target : Handle) (whole : Extent) (range : Range) (usage : Usage)
    (inside : whole.range.encloses range = true) :
    (carve target whole range usage inside).Fixes region := by
  rw [carve_eq]
  have hfront : (cutFront target whole range usage inside).Fixes region := by
    refine .bind (fixes_change target _) fun _ => ?_
    split
    · exact fixes_place _ _
    · exact .pure target
  have hback : (cutBack whole range).Fixes region := by
    unfold cutBack
    split
    · exact .bind (fixes_place _ _) fun _ => .pure ()
    · exact .pure ()
  exact .bind hfront fun middle => .bind hback fun _ => .bind (fixes_note _ _) fun _ =>
    fixes_mergeAround middle

theorem fixes_reclaim (target : Handle) (range : Range) (usage : Usage)
    (expected : Option Usage) : (reclaim target range usage expected).Fixes region := by
  refine .bind .get fun m => ?_
  cases m.get? target with
  | none => exact .refuse _
  | some whole =>
      dsimp only
      split
      · next inside =>
        cases expected.filter (· ≠ whole.usage) with
        | some other => exact .refuse _
        | none =>
            dsimp only
            split
            · exact .pure target
            · exact fixes_carve target whole range usage inside
      · exact .bind (fixes_note _ _) fun _ => .refuse _

/-- No call changes the region, not even one that slots run out in the middle of. -/
theorem fixes_perform (c : Mutation) : c.perform.Fixes region := by
  have hanswer : ∀ {α : Type} {op : ExtentOperation α}, op.Fixes region →
      (do let _ ← op : ExtentOperation Unit).Fixes region :=
    fun h => .bind h fun _ => .pure _
  cases c with
  | insert range usage =>
      refine hanswer (.bind .get fun m => ?_)
      split
      · exact .bind (.mapError _ (fixes_onIndex _)) fun id =>
          .bind (.modify fun m => (sameFrame_list m id).region_eq) fun _ =>
            .bind (fixes_note _ _) fun _ => .pure id
      · exact .refuse _
  | delete range =>
      refine hanswer (.bind .get fun m => ?_)
      rcases m.index.search Extent.keying range .exact with _ | ⟨id, found⟩
      · exact .refuse _
      · dsimp only
        split
        · exact .bind (fixes_displace id) fun _ => .bind (fixes_note _ _) fun _ => .pure _
        · exact .refuse _
  | reclaim target range usage expected =>
      exact hanswer (fixes_reclaim target range usage expected)
  | reclaimAt range usage expected =>
      refine hanswer (.bind .get fun m => ?_)
      rcases m.find? range.start with _ | ⟨target, _⟩
      · exact .refuse _
      · exact fixes_reclaim target range usage expected
  | merge address =>
      refine hanswer (.bind .get fun m => ?_)
      rcases m.find? address with _ | ⟨id, _⟩
      · exact .refuse _
      · exact fixes_mergeAround id
  | reset =>
      exact .bind (.modify fun _ => rfl) fun _ => .bind .get fun m =>
        .bind (fixes_place _ _) fun _ => .pure ()

end ExtentMap

/-! ## Every run -/

namespace ExtentMap

/-- The map after some calls, however each of them ends. -/
def afterCalls (m : ExtentMap) (calls : List Mutation) : ExtentMap :=
  calls.foldl (fun m c => (c.perform.run m).state) m

theorem Sound.afterCalls {m : ExtentMap} (h : m.Sound) (calls : List Mutation) :
    (m.afterCalls calls).Sound := by
  induction calls generalizing m with
  | nil => exact h
  | cons c calls ih => exact ih (h.perform c)

theorem region_afterCalls (m : ExtentMap) (calls : List Mutation) :
    (m.afterCalls calls).region = m.region := by
  induction calls generalizing m with
  | nil => rfl
  | cons c calls ih => exact (ih _).trans (fixes_perform c m)

end ExtentMap

namespace LinkedMap

theorem Mirrors.afterCalls {x : LinkedMap} {m : ExtentMap} (h : x.Mirrors m)
    (calls : List ExtentMap.Mutation) : (x.afterCalls calls).Mirrors (m.afterCalls calls) := by
  induction calls generalizing x m with
  | nil => exact h
  | cons c calls ih => exact ih (h.perform c).related

end LinkedMap

namespace ExtentMap

/-- What an audit answers for a map of `region`, and for the same map in memory. -/
structure AuditDecides (region : Range) (m : ExtentMap) (x : LinkedMap) : Prop where
  passes_iff : m.audit = .ok () ↔ m.extents ≠ [] ∧
    Tiles region.start m.toList region.stop ∧ Unmerged m.toList
  fails_iff : ∀ v, m.audit = .error v ↔ FirstDefect region m.extents v
  audit_eq : x.audit = m.audit
  indexInOrder : x.IndexInOrder

theorem Sound.auditDecides {m : ExtentMap} (h : m.Sound) {x : LinkedMap} (hx : x.Mirrors m) :
    AuditDecides m.region m x where
  passes_iff := by
    rw [h.audit_eq_ok_iff]
    constructor
    · intro hp
      refine ⟨fun hnil => ?_, hp.tiles, hp.unmerged⟩
      have htiles := hp.tiles
      rw [List.map_eq_nil_iff.mp hnil] at htiles
      exact Nat.ne_of_lt m.region.start_lt_stop htiles
    · rintro ⟨-, htiles, hunmerged⟩
      exact ⟨htiles, hunmerged⟩
  fails_iff v := by
    rw [h.audit_eq]
    exact auditPartition_eq_error_iff
  audit_eq := hx.audit_eq h
  indexInOrder := hx.indexInOrder h

/-- After calls of every kind an audit passes if there are extents, which tile the region and
differ in usage from their neighbours. Otherwise it answers the first defect in the order of
the addresses. It has nothing to say of the index and the size classes. -/
theorem audit_decides_partition (owner : Nat) (name : String) (region : Range) :
    ∃ m x, (create owner name region : Operation Unit ExtentError ExtentMap).outcome () =
        (.ok m, ()) ∧
      (LinkedMap.create owner name region : Operation Unit ExtentError LinkedMap).outcome () =
        (.ok x, ()) ∧
      ∀ calls, AuditDecides region (m.afterCalls calls) (x.afterCalls calls) := by
  obtain ⟨x, m, hx, hm, hmirrors, hsound⟩ := LinkedMap.outcome_create owner name region ()
  obtain ⟨_, m', hm', -, hregion, -⟩ := outcome_create (σ := Unit) owner name region ()
  obtain rfl : m = m' := Verdict.ok.inj (Prod.mk.inj (hm.symm.trans hm')).1
  refine ⟨m, x, hm, hx, fun calls => ?_⟩
  rw [← hregion, ← region_afterCalls m calls]
  exact (hsound.afterCalls calls).auditDecides (hmirrors.afterCalls calls)

/-- Deleted from the middle of a region, an extent leaves a hole; inserted again with the usage
it had, it leaves a twin. -/
example :
    let region : Range := ⟨0x1000, 0x4000, by decide, by decide⟩
    let low : Range := ⟨0x1000, 0x2000, by decide, by decide⟩
    let middle : Range := ⟨0x2000, 0x3000, by decide, by decide⟩
    let high : Range := ⟨0x3000, 0x4000, by decide, by decide⟩
    let m := (created region).afterCalls [.reclaimAt middle .inUse none, .delete middle]
    m.audit = .error (.notContiguous low high) ∧
      (m.afterCalls [.insert middle .free]).audit = .error (.unmerged low middle .free) := by
  decide +kernel

end ExtentMap

end KernelMemory
