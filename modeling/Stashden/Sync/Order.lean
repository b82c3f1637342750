import Stashden.Sync.Plan

/-!
# A plan can be run in its order (`plan.rs:36-146`)

`reconcile` collects by kind, reverses the two lists of removals and appends the lists; byte order
within a list puts a directory before what is inside it. `plan_executable` is what that comes to: a
directory is made before anything in it, and empty when it is removed.

`before_of_not_precedes` reads "stands earlier" off `actions_pairwise`: of two actions of a plan one
stands before the other, and it is the one that may.
-/

namespace Stashden.Sync

open Lib RelPath

variable {localSide remote base : Snapshot} {now : DateTime} {a b : Action} {actions : List Action}

/-- `a` stands before `b` in a list of actions. -/
def Before (actions : List Action) (a b : Action) : Prop := [a, b].Sublist actions

/-- Of two members of a list in order, the one that may not stand later stands before. -/
theorem before_of_pairwise {α : Type} {R : α → α → Prop} {l : List α} {a b : α}
    (hl : l.Pairwise R) (ha : a ∈ l) (hb : b ∈ l) (hne : a ≠ b) (hno : ¬ R b a) :
    [a, b].Sublist l := by
  induction l with
  | nil => exact absurd ha List.not_mem_nil
  | cons x l ih =>
    obtain ⟨hx, hrest⟩ := List.pairwise_cons.mp hl
    rcases List.mem_cons.mp ha with rfl | ha'
    · have hb' := (List.mem_cons.mp hb).resolve_left (Ne.symm hne)
      exact (List.singleton_sublist.mpr hb').cons_cons a
    · rcases List.mem_cons.mp hb with rfl | hb'
      · exact absurd (hx a ha') hno
      · exact (ih hrest ha' hb').cons x

theorem before_of_not_precedes (ha : a ∈ (reconcile localSide remote base now).actions)
    (hb : b ∈ (reconcile localSide remote base now).actions) (hne : a ≠ b)
    (hno : ¬ b.Precedes a) : Before (reconcile localSide remote base now).actions a b :=
  before_of_pairwise actions_pairwise ha hb hne hno

/-- An action of an earlier list, or of the same list at its place, stands before. -/
theorem before_of_rank (ha : a ∈ (reconcile localSide remote base now).actions)
    (hb : b ∈ (reconcile localSide remote base now).actions)
    (hrank : a.slot.rank < b.slot.rank ∨ a.slot = b.slot ∧
      if a.slot.backwards then b.subject < a.subject else a.subject < b.subject) :
    Before (reconcile localSide remote base now).actions a b := by
  refine before_of_not_precedes ha hb ?_ ?_
  · rintro rfl
    rcases hrank with hlt | ⟨-, hlt⟩
    · exact lt_irrefl _ hlt
    · split_ifs at hlt
      · exact lt_irrefl _ hlt
      · exact lt_irrefl _ hlt
  · rintro ⟨-, hlt' | ⟨heq, hlt'⟩⟩
    · rcases hrank with hlt | ⟨heq, -⟩
      · exact lt_asymm hlt hlt'
      · rw [heq] at hlt'
        exact lt_irrefl _ hlt'
    · rcases hrank with hlt | ⟨-, hlt⟩
      · rw [heq] at hlt
        exact lt_irrefl _ hlt
      · rw [heq] at hlt'
        split_ifs at hlt hlt'
        · exact lt_asymm hlt hlt'
        · exact lt_asymm hlt hlt'

/-- A plan that can be run from its first action to its last. -/
structure Executable (plan : Plan) : Prop where
  /-- A directory is made before the directories and the files inside it. -/
  created : ∀ d ∈ plan.actions, ∀ a ∈ plan.actions, d.slot = .created →
    a.slot = .created ∨ a.slot = .transfers → a.subject.isInside d.subject = true →
      Before plan.actions d a
  /-- What is deleted or removed here inside a directory goes before the directory does. -/
  removed : ∀ d, .removeLocalDirectory d ∈ plan.actions → ∀ a ∈ plan.actions,
    a = .deleteLocal a.subject ∨ a = .removeLocalDirectory a.subject →
      a.subject.isInside d = true → Before plan.actions a (.removeLocalDirectory d)
  /-- And so on the server. -/
  removedRemotely : ∀ d, .removeRemoteDirectory d ∈ plan.actions → ∀ a ∈ plan.actions,
    a = .deleteRemote a.subject ∨ a = .removeRemoteDirectory a.subject →
      a.subject.isInside d = true → Before plan.actions a (.removeRemoteDirectory d)
  /-- Nothing is made or transferred at or inside a directory removed from the server. -/
  apart : ∀ d, .removeRemoteDirectory d ∈ plan.actions → ∀ a ∈ plan.actions,
    a.slot = .created ∨ a.slot = .transfers → a.subject ≠ d ∧ a.subject.isInside d = false
  /-- Every path has at most one action. -/
  once : (plan.actions.map Action.subject).Nodup
  /-- A blocked path has none. -/
  blocked : ∀ p ∈ plan.blocked, ∀ a ∈ plan.actions, a.subject ≠ p

/-- What is removed goes before the directory it is in, on either side. -/
theorem removal_before {d : Action} (hd : d ∈ (reconcile localSide remote base now).actions)
    (ha : a ∈ (reconcile localSide remote base now).actions) (hback : d.slot.backwards = true)
    (hslot : a.slot = .deletions ∨ a.slot = d.slot) (hin : a.subject.isInside d.subject = true) :
    Before (reconcile localSide remote base now).actions a d := by
  refine before_of_rank ha hd ?_
  rcases hslot with hdel | hsame
  · refine Or.inl ?_
    rw [hdel]
    revert hback
    cases d.slot <;> decide
  · refine Or.inr ⟨hsame, ?_⟩
    rw [hsame, if_pos hback]
    exact lt_of_isInside hin

/-- Nothing on this side is inside a directory that it lacks, so nothing is made or transferred
below one that is removed from the server. -/
theorem apart_of_removed (hlocal : localSide.TreeShaped) {d : RelPath}
    (hd : Warranted localSide remote base now (.removeRemoteDirectory d))
    (ha : Warranted localSide remote base now a) (hslot : a.slot = .created ∨ a.slot = .transfers) :
    a.subject ≠ d ∧ a.subject.isInside d = false := by
  constructor
  · intro heq
    have hsame := eq_of_warranted_of_subject ha hd heq
    rw [hsame] at hslot
    rcases hslot with hslot | hslot <;> cases hslot
  · by_contra hno
    have hin : a.subject.isInside d = true := by simpa using hno
    obtain ⟨hl, hr, -, hsynced⟩ := hd
    have hnone : localSide.get a.subject = none :=
      hlocal.none_inside (by rw [hl]; simp) hin
    cases a with
    | createLocalDirectory p =>
      obtain ⟨-, hremote, hbase⟩ := ha
      have hsame := hsynced p _ hin hremote
      rw [hbase] at hsame
      cases hsame
    | createRemoteDirectory p =>
      obtain ⟨hhere, -⟩ := ha
      rw [show localSide.get p = none from hnone] at hhere
      cases hhere
    | download p =>
      obtain ⟨t, n, hremote, ⟨-, hbase⟩ | ⟨t', n', hhere, -⟩⟩ := ha
      · exact hbase (hsynced p _ hin hremote)
      · rw [show localSide.get p = none from hnone] at hhere
        cases hhere
    | upload p =>
      obtain ⟨t, n, hhere, -⟩ := ha
      rw [show localSide.get p = none from hnone] at hhere
      cases hhere
    | keepBoth p c =>
      obtain ⟨⟨t, n, t', n', hhere, -⟩, -⟩ := ha
      rw [show localSide.get p = none from hnone] at hhere
      cases hhere
    | setAside p c => exact ha
    | deleteLocal p => rcases hslot with hslot | hslot <;> cases hslot
    | deleteRemote p => rcases hslot with hslot | hslot <;> cases hslot
    | removeLocalDirectory p => rcases hslot with hslot | hslot <;> cases hslot
    | removeRemoteDirectory p => rcases hslot with hslot | hslot <;> cases hslot
    | forget p => rcases hslot with hslot | hslot <;> cases hslot

theorem not_warranted_of_blocked {p : RelPath}
    (hp : p ∈ (reconcile localSide remote base now).blocked)
    (ha : Warranted localSide remote base now a) : a.subject ≠ p := by
  rintro rfl
  have hv := verdict_of_warranted ha
  rcases mem_blocked_iff.mp hp with ⟨t, n, hl, hr⟩ | ⟨t, n, hl, hr⟩
  · unfold verdict at hv
    simp [hl, hr] at hv
  · unfold verdict at hv
    simp [hl, hr] at hv

/-- **A plan can be run in its order**, whatever the server has, the base records and the clock
shows. -/
theorem plan_executable (hlocal : localSide.TreeShaped) (remote base : Snapshot) (now : DateTime) :
    Executable (reconcile localSide remote base now) where
  created d hd a ha hslot haslot hin := by
    refine before_of_rank hd ha ?_
    rw [hslot]
    rcases haslot with haslot | haslot
    · rw [haslot]
      exact Or.inr ⟨rfl, lt_of_isInside hin⟩
    · rw [haslot]
      exact Or.inl (by decide)
  removed d hd a ha hkind hin := by
    refine removal_before hd ha rfl ?_ hin
    rcases hkind with hkind | hkind
    · rw [hkind]
      exact Or.inl rfl
    · rw [hkind]
      exact Or.inr rfl
  removedRemotely d hd a ha hkind hin := by
    refine removal_before hd ha rfl ?_ hin
    rcases hkind with hkind | hkind
    · rw [hkind]
      exact Or.inl rfl
    · rw [hkind]
      exact Or.inr rfl
  apart d hd a ha hslot :=
    apart_of_removed hlocal (mem_actions_iff.mp hd) (mem_actions_iff.mp ha) hslot
  once := by
    rw [List.Nodup, List.pairwise_map]
    exact actions_pairwise.imp fun h => h.1
  blocked p hp a ha := not_warranted_of_blocked hp (mem_actions_iff.mp ha)

/-- A new folder in a new folder here; a synced folder with a file that is gone from here. -/
theorem plan_executable_nested :
    let d : RelPath := ⟨"d".toList, by decide⟩
    let file : RelPath := ⟨"d/a".toList, by decide⟩
    let new : RelPath := ⟨"n".toList, by decide⟩
    let inner : RelPath := ⟨"n/m".toList, by decide⟩
    let synced : Snapshot := OrdMap.ofList [(d, .directory), (file, .file ['t'] 1)]
    Executable (reconcile (OrdMap.ofList [(new, .directory), (inner, .directory)]) synced synced
      .unixEpoch) :=
  plan_executable (by decide) _ _ _

end Stashden.Sync
