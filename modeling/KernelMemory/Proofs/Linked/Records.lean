import KernelMemory.Index.Linked
import KernelMemory.Proofs.Records

/-!
# Records of linked indexes

The only record that a change of links writes names the case of a rotation. All the rest is
quiet: reading and writing of nodes, the way down to a gap, the rotation itself. So the records
of a call are the cases that the walk back up has come into, one for each node that it lowered.
-/

namespace KernelMemory

namespace Linked

open Operation

variable {α ε : Type} (id : Handle) (link parent : Option Handle) (side : Side)

theorem quiet_resolve : Quiet (resolve id : LinkedOperation ε α _) := by
  refine Quiet.get.bind fun x => ?_
  cases x.node? id with
  | some n => exact .pure n
  | none => exact .crash _

theorem quiet_alter (f : LinkedNode α → LinkedNode α) :
    Quiet (alter id f : LinkedOperation ε α _) :=
  (quiet_resolve id).bind fun _ => .modify _

theorem quiet_heightOf : Quiet (heightOf link : LinkedOperation ε α _) := by
  cases link with
  | none => exact .pure 0
  | some id => exact (quiet_resolve id).bind fun n => .pure n.height

theorem quiet_balance : Quiet (balance id : LinkedOperation ε α _) :=
  (quiet_resolve id).bind fun _ => (quiet_heightOf _).bind fun _ =>
    (quiet_heightOf _).bind fun _ => .pure _

theorem quiet_updateHeight : Quiet (updateHeight id : LinkedOperation ε α _) :=
  (quiet_resolve id).bind fun _ => (quiet_heightOf _).bind fun _ =>
    (quiet_heightOf _).bind fun _ => quiet_alter id _

theorem quiet_setChild : Quiet (setChild id side link : LinkedOperation ε α _) :=
  quiet_alter id _

theorem quiet_adopt : Quiet (adopt link parent : LinkedOperation ε α _) := by
  cases link with
  | none => exact .pure ()
  | some child => exact quiet_alter child _

theorem quiet_replaceChild (old : Handle) :
    Quiet (replaceChild parent old link : LinkedOperation ε α _) := by
  cases parent with
  | none => exact .modify _
  | some p =>
      refine (quiet_resolve p).bind fun n => ?_
      split
      · exact quiet_setChild p link .left
      · split
        · exact quiet_setChild p link .right
        · exact .stop _

theorem quiet_childOf : Quiet (childOf id side : LinkedOperation ε α _) := by
  refine (quiet_resolve id).bind fun n => ?_
  cases n.child side with
  | some c => exact .pure c
  | none => exact .crash _

theorem quiet_rotate : Quiet (rotate side id : LinkedOperation ε α _) :=
  (quiet_childOf id _).bind fun raised =>
    (quiet_resolve raised).bind fun _ =>
    (quiet_resolve id).bind fun _ =>
    (quiet_alter id _).bind fun _ =>
    (quiet_adopt _ _).bind fun _ =>
    (quiet_alter raised _).bind fun _ =>
    (quiet_alter id _).bind fun _ =>
    (quiet_alter raised _).bind fun _ =>
    (quiet_replaceChild _ _ id).bind fun _ =>
    (quiet_updateHeight id).bind fun _ =>
    (quiet_updateHeight raised).bind fun _ => .pure raised

theorem quiet_descend (probe : α → Ordering) (steps : Nat) (place : Option (Handle × Side)) :
    Quiet (descend probe steps place link) := by
  induction steps generalizing place link with
  | zero =>
      cases link with
      | none => exact .pure place
      | some id => exact .stop _
  | succ steps ih =>
      cases link with
      | none => exact .pure place
      | some id =>
          refine (quiet_resolve id).bind fun n => ?_
          cases probe n.value with
          | lt => exact ih _ _
          | eq => exact .refuse _
          | gt => exact ih _ _

theorem quiet_occupy (n : LinkedNode α) : Quiet (occupy n : LinkedOperation ε α _) := by
  refine Quiet.get.bind fun x => ?_
  split
  · refine (Quiet.set _).bind fun _ => ?_
    split
    · exact .stop _
    · split
      · exact .stop _
      · exact (Quiet.modify _).bind fun _ => .pure _
  · split
    · exact (Quiet.set _).bind fun _ => .pure _
    · exact .note_stop _ _ _

theorem quiet_attach (place : Option (Handle × Side)) :
    Quiet (attach place id : LinkedOperation ε α _) := by
  cases place with
  | none => exact .modify _
  | some place => exact quiet_setChild place.1 _ place.2

end Linked

end KernelMemory
