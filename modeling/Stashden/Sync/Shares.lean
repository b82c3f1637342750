import Stashden.Sync.Settle

/-!
# Removing a share from this computer

A share, or the shelf, that is recorded and no longer in the folder was removed by the user. Its
content is its owner's, and is held back from removal because the plan asks for the removal of the
share itself. `removes_iff` says which removals a plan has left; `owner_kept_iff` when none of them
is inside a removed share: what the server still has there as recorded must be in a share it has as
recorded altogether. `owner_loses_file` is a share to which its owner added a file.
-/

namespace Stashden.Sync

open Lib Stashden.Core RelPath

/-- The server holds at a path what is recorded: the same file, or a directory recorded too in which
everything is recorded as it is. -/
def AsRecorded (remote base : Snapshot) (p : RelPath) : Prop :=
  (∃ t n, remote.get p = some (.file t n) ∧ base.get p = remote.get p) ∨
    (remote.get p = some .directory ∧ base.get p ≠ none ∧
      ∀ q e, q.isInside p = true → remote.get q = some e → base.get q = some e)

/-- A share or the shelf that is recorded and gone from the folder. -/
structure Held.Gone (h : Held) (localSide base : Snapshot) (r : RelPath) : Prop where
  fixed : h.fixed r = true
  recorded : base.get r ≠ none
  absent : localSide.get r = none

/-- What no removal of the folder reaches: a read-only share and what is in it, the shares and the
shelf themselves, and what is in one that is gone here and on the server as recorded. -/
def Held.Spares (h : Held) (localSide remote base : Snapshot) (p : RelPath) : Prop :=
  h.readOnly p = true ∨ h.fixed p = true ∨ ∃ r, h.Gone localSide base r ∧ p.isInside r = true ∧
    remote.get r = some .directory ∧ AsRecorded remote base r

/-- What remains of the plan takes nothing at the shelf, at a share that is gone, or inside it. -/
def OwnerKept (h : Held) (localSide remote base : Snapshot) (now : DateTime) : Prop :=
  ∀ r, h.Gone localSide base r → ∀ a ∈ acts h localSide remote base now, a.removes = true →
    h.shelf ≠ some a.subject ∧ a.subject ≠ r ∧ a.subject.isInside r = false

section Removals

variable {h : Held} {localSide remote base : Snapshot} {now : DateTime} {p : RelPath}

/-- The shares whose removal a plan asks for are gone here and on the server as recorded. -/
theorem mem_uprooted_iff :
    p ∈ h.uprooted (reconcile localSide remote base now).actions ↔
      h.Gone localSide base p ∧ remote.get p = some .directory ∧ AsRecorded remote base p := by
  unfold Held.uprooted
  rw [List.mem_filterMap]
  constructor
  · rintro ⟨a, ha, hr⟩
    cases a with
    | removeRemoteDirectory q =>
      simp only at hr
      split_ifs at hr with hf
      cases hr
      obtain ⟨hl, hd, hb, hall⟩ := mem_actions_iff.mp ha
      exact ⟨⟨hf, hb, hl⟩, hd, Or.inr ⟨hd, hb, hall⟩⟩
    | _ => exact absurd hr (by simp)
  · rintro ⟨⟨hf, hb, hl⟩, hd, hu⟩
    refine ⟨.removeRemoteDirectory p, mem_actions_iff.mpr ?_, by simp [hf]⟩
    rcases hu with ⟨t, n, hfile, -⟩ | ⟨-, -, hall⟩
    · rw [hd] at hfile
      exact absurd hfile (by simp)
    · exact ⟨hl, hd, hb, hall⟩

theorem holdsRemoval_iff (now : DateTime) :
    h.holdsRemoval (h.uprooted (reconcile localSide remote base now).actions) p = true ↔
      h.Spares localSide remote base p := by
  simp only [Held.holdsRemoval, Held.Spares, Bool.or_eq_true, List.any_eq_true, mem_uprooted_iff,
    or_assoc]
  refine or_congr_right (or_congr_right (exists_congr fun r => ?_))
  constructor
  · rintro ⟨⟨hg, hd, hu⟩, hin⟩
    exact ⟨hg, hin, hd, hu⟩
  · rintro ⟨hg, hin, hd, hu⟩
    exact ⟨⟨hg, hd, hu⟩, hin⟩

/-- A removal is planned where the folder has nothing and the server what is recorded. -/
theorem removal_warranted_iff (now : DateTime) :
    (∃ a, Warranted localSide remote base now a ∧ a.removes = true ∧ a.subject = p) ↔
      localSide.get p = none ∧ AsRecorded remote base p := by
  constructor
  · rintro ⟨a, hw, hrem, rfl⟩
    cases a with
    | deleteRemote q =>
      obtain ⟨t, n, hr, hl, hb⟩ := hw
      exact ⟨hl, Or.inl ⟨t, n, hr, hb⟩⟩
    | removeRemoteDirectory q =>
      obtain ⟨hl, hr, hb, hall⟩ := hw
      exact ⟨hl, Or.inr ⟨hr, hb, hall⟩⟩
    | _ => exact absurd hrem (by simp [Action.removes])
  · rintro ⟨hl, ⟨t, n, hr, hb⟩ | ⟨hr, hb, hall⟩⟩
    · exact ⟨.deleteRemote p, ⟨t, n, hr, hl, hb⟩, rfl, rfl⟩
    · exact ⟨.removeRemoteDirectory p, ⟨hl, hr, hb, hall⟩, rfl, rfl⟩

/-- **Which removals a plan has left.** -/
theorem removes_iff :
    (∃ a ∈ acts h localSide remote base now, a.removes = true ∧ a.subject = p) ↔
      localSide.get p = none ∧ AsRecorded remote base p ∧ ¬h.Spares localSide remote base p := by
  rw [← holdsRemoval_iff now, ← and_assoc, ← removal_warranted_iff now]
  constructor
  · rintro ⟨a, ha, hrem, rfl⟩
    have hw := Execution.warranted_of_mem ha <| by
      rintro q c rfl
      exact absurd hrem (by simp [Action.removes])
    refine ⟨⟨a, hw, hrem, rfl⟩, fun hheld => ?_⟩
    rcases Held.mem_apply_iff.mp ha with ⟨q, c, -, -, rfl⟩ | ⟨-, hh, -⟩
    · exact absurd hrem (by simp [Action.removes])
    · cases a with
      | deleteRemote q => exact absurd (hheld.symm.trans hh) (by simp)
      | removeRemoteDirectory q => exact absurd (hheld.symm.trans hh) (by simp)
      | _ => exact absurd hrem (by simp [Action.removes])
  · rintro ⟨⟨a, hw, hrem, rfl⟩, hheld⟩
    refine ⟨a, Execution.mem_acts hw ?_ ?_, hrem, rfl⟩
    · rw [← Bool.not_eq_true]
      cases a with
      | deleteRemote q => exact hheld
      | removeRemoteDirectory q => exact hheld
      | _ => exact absurd hrem (by simp [Action.removes])
    · cases a with
      | deleteRemote q => rfl
      | removeRemoteDirectory q => rfl
      | _ => exact absurd hrem (by simp [Action.removes])

/-- **Removing a share here takes nothing from its owner, exactly when** everything the server still
has in it as recorded is spared. -/
theorem owner_kept_iff (hL : localSide.TreeShaped) :
    OwnerKept h localSide remote base now ↔
      ∀ r, h.Gone localSide base r → ∀ p, p.isInside r = true → AsRecorded remote base p →
        h.Spares localSide remote base p := by
  constructor
  · intro hkept r hr p hin hu
    by_contra hno
    have hl : localSide.get p = none := hL.none_inside (d := r) (by simp [hr.absent]) hin
    have hremoved : ∃ a ∈ acts h localSide remote base now, a.removes = true ∧ a.subject = p :=
      removes_iff.mpr ⟨hl, hu, hno⟩
    obtain ⟨a, ha, hrem, rfl⟩ := hremoved
    rw [(hkept r hr a ha hrem).2.2] at hin
    exact absurd hin (by simp)
  · intro hall r hr a ha hrem
    obtain ⟨-, hu, hno⟩ := removes_iff.mp ⟨a, ha, hrem, rfl⟩
    refine ⟨fun hs => hno (Or.inr (Or.inl (Held.fixed_iff.mpr (Or.inl hs)))), ?_, ?_⟩
    · rintro rfl
      exact hno (Or.inr (Or.inl hr.fixed))
    · rw [← Bool.not_eq_true]
      exact fun hin => hno (hall r hr _ hin hu)

end Removals

/-! ## Two shares -/

/-- The shelf, the share `inbox`, and what is in it. -/
def pathShelf : RelPath := ⟨sharedWithMe, by decide⟩

def pathInbox : RelPath := ⟨"Shared with me/inbox".toList, by decide⟩

def pathInboxA : RelPath := ⟨"Shared with me/inbox/a".toList, by decide⟩

def pathInboxB : RelPath := ⟨"Shared with me/inbox/b".toList, by decide⟩

/-- A share that may be written. -/
def inbox : Held := .fromMounts [("inbox".toList, .write)]

/-- The share with the file that was synced. -/
def synced : Snapshot :=
  OrdMap.ofList [(pathShelf, .directory), (pathInbox, .directory), (pathInboxA, .file ['x'] 1)]

/-- What is left of it here: the shelf. -/
def shelfOnly : Snapshot := OrdMap.ofList [(pathShelf, .directory)]

theorem owner_kept_iff_removed :
    (inbox.apply (reconcile shelfOnly synced synced .unixEpoch)).held = [pathInboxA, pathInbox] ∧
      (OwnerKept inbox shelfOnly synced synced .unixEpoch ↔
        ∀ r, inbox.Gone shelfOnly synced r → ∀ p, p.isInside r = true →
          AsRecorded synced synced p → inbox.Spares shelfOnly synced synced p) :=
  ⟨by decide +kernel, owner_kept_iff (by decide +kernel)⟩

/-- **The owner of a share loses a file**: they added another one to it, so that the plan does not
ask for the removal of the share, and nothing holds back what is planned inside. -/
theorem owner_loses_file :
    let remote : Snapshot := synced.insert pathInboxB (.file ['y'] 1)
    shelfOnly.TreeShaped ∧ remote.TreeShaped ∧ inbox.Gone shelfOnly synced pathInbox ∧
      .deleteRemote pathInboxA ∈ acts inbox shelfOnly remote synced .unixEpoch ∧
      ¬OwnerKept inbox shelfOnly remote synced .unixEpoch := by
  have hgone : inbox.Gone shelfOnly synced pathInbox :=
    ⟨by decide +kernel, by decide +kernel, by decide +kernel⟩
  have hmem : Action.deleteRemote pathInboxA ∈
      acts inbox shelfOnly (synced.insert pathInboxB (.file ['y'] 1)) synced .unixEpoch := by
    decide +kernel
  refine ⟨by decide +kernel, by decide +kernel, hgone, hmem, fun h => ?_⟩
  exact absurd (h pathInbox hgone _ hmem rfl).2.2 (by decide +kernel)

end Stashden.Sync
