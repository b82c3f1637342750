import Stashden.Sync.Pass
import Stashden.Sync.Shares
import Stashden.Sync.Walk

/-!
# Entries the scan skips

A link or a special file is not reported, so for `reconcile` nothing stands at its path nor inside
it. `left_alone_iff` says when a pass still leaves it alone: when the listing has no file there other
than the recorded one, and everything the listing has there or inside as recorded is in a share that
keeps it. `link_removed` is a recorded file replaced by a link.
-/

namespace Stashden.Sync

open Lib RelPath

variable {u : Unicode} {pass : Pass} {w : World} {root : Listing} {item : Item} {p q : RelPath}

/-- A pass removes nothing at a path, inside it or around it, and downloads nothing onto it. -/
def LeftAlone (u : Unicode) (pass : Pass) (w : World) (p : RelPath) : Prop :=
  ∀ a ∈ (pass.plan u w).actions,
    (a.removes = true → atOrInside p a.subject = false ∧ p.isInside a.subject = false) ∧
    (a.fetches = true → a.subject ≠ p)

/-- What the other side would do to a path the scan skipped. -/
structure Undisturbed (u : Unicode) (pass : Pass) (w : World) (p : RelPath) : Prop where
  file : ∀ t n, (pass.remote u w).get p = some (.file t n) →
    (pass.base u w).get p = some (.file t n)
  spared : ∀ q, atOrInside p q = true → AsRecorded (pass.remote u w) (pass.base u w) q →
    pass.held.Spares (pass.localSide u w) (pass.remote u w) (pass.base u w) q

/-- Nothing is reported at a skipped path, nor inside it. -/
theorem localSide_of_skipped (hscan : pass.scan = scanOf u w.state root)
    (hwf : root.wellFormed = true) (hf : root.find p.segments = some item)
    (hi : item.unreported = true) (hq : atOrInside p q = true) :
    (pass.localSide u w).get q = none := by
  have hnone : pass.scan.snapshot.get q = none := by
    rw [hscan, LocalScan.get_snapshot, get_scanOf hwf]
    split_ifs
    · cases hfq : root.find q.segments with
      | none => rfl
      | some found =>
        rcases atOrInside_iff.mp hq with rfl | hin
        · obtain rfl := Option.some.inj (hf.symm.trans hfq)
          cases item <;> first | rfl | cases hi
        · obtain ⟨inside, hinside⟩ := find_above hin hfq
          obtain rfl := Option.some.inj (hf.symm.trans hinside)
          cases hi
    · rfl
  unfold Pass.localSide
  rw [Pass.get_fits, hnone, ite_self]

/-- A directory a skipped path is in is reported. -/
theorem localSide_above_skipped (hscan : pass.scan = scanOf u w.state root)
    (hwf : root.wellFormed = true) (hv : Visible u p) (hf : root.find p.segments = some item)
    (hq : p.isInside q = true) (hfit : (pass.unfit u w).containsKey q = false) :
    (pass.localSide u w).get q = some .directory := by
  obtain ⟨inside, hinside⟩ := find_above hq hf
  unfold Pass.localSide
  rw [Pass.get_fits, hfit, hscan, LocalScan.get_snapshot, get_scanOf hwf, if_pos (hv.above hq),
    hinside]
  rfl

/-- **A pass leaves a skipped entry alone, exactly when** the other side has nothing to do there. -/
theorem left_alone_iff (hscan : pass.scan = scanOf u w.state root) (hwf : root.wellFormed = true)
    (hv : Visible u p) (hf : root.find p.segments = some item) (hi : item.unreported = true) :
    LeftAlone u pass w p ↔ Undisturbed u pass w p := by
  have habsent : ∀ q, atOrInside p q = true → (pass.localSide u w).get q = none :=
    fun q hq => localSide_of_skipped hscan hwf hf hi hq
  have hself : atOrInside p p = true := atOrInside_iff.mpr (Or.inl rfl)
  unfold LeftAlone
  rw [Pass.plan_eq]
  constructor
  · intro halone
    refine ⟨fun t n hr => ?_, fun q hq hrec => ?_⟩
    · by_contra hb
      have hw : Warranted (pass.localSide u w) (pass.remote u w) (pass.base u w) pass.now
          (.download p) := ⟨t, n, hr, Or.inl ⟨habsent p hself, hb⟩⟩
      exact (halone _ (Execution.mem_acts (h := pass.held) hw rfl rfl)).2 rfl rfl
    · by_contra hno
      obtain ⟨a, ha, hrem, rfl⟩ := removes_iff.mpr ⟨habsent q hq, hrec, hno⟩
      rw [((halone a ha).1 hrem).1] at hq
      cases hq
  · rintro ⟨hfile, hspared⟩ a ha
    refine ⟨fun hrem => ?_, fun hfetch => ?_⟩
    · obtain ⟨hl, hrec, hno⟩ := removes_iff.mp ⟨a, ha, hrem, rfl⟩
      constructor
      · rw [← Bool.not_eq_true]
        exact fun hq => hno (hspared _ hq hrec)
      · rw [← Bool.not_eq_true]
        intro hq
        have hfit : (pass.unfit u w).containsKey a.subject = false := by
          rcases hrec with ⟨t, n, hr, -⟩ | ⟨hr, -⟩ <;> exact (Pass.remote_eq_some hr).2.2
        rw [localSide_above_skipped hscan hwf hv hf hq hfit] at hl
        cases hl
    · rintro rfl
      have hnone := habsent a.subject hself
      have hplanned := Execution.planned_of_mem ha
      cases a with
      | download q =>
        rcases hplanned with ⟨t, n, hr, ⟨-, hb⟩ | ⟨t', n', hl, -⟩⟩ | ⟨_, _, e, -⟩
        · exact hb (hfile t n hr)
        · exact absurd (hnone.symm.trans hl) (by simp)
        · cases e
      | keepBoth q c =>
        rcases hplanned with ⟨⟨t, n, t', n', hl, -⟩, -⟩ | ⟨_, _, e, -⟩
        · exact absurd (hnone.symm.trans hl) (by simp)
        · cases e
      | setAside q c =>
        obtain ⟨⟨t, n, t', n', hl, -⟩, -⟩ := hplanned.of_setAside
        exact absurd (hnone.symm.trans hl) (by simp)
      | _ => exact absurd hfetch (by simp [Action.fetches])

/-! ## A link -/

/-- A folder with nothing but a link. -/
def linked : Listing := .cons (.text ['a']) .symlink .nil

/-- A pass over that folder, without rules or shares. -/
def overLink (state : SyncState) : Pass where
  rules := ⟨false, false⟩
  mounts := none
  now := .unixEpoch
  scan := scanOf .ascii state linked
  mtimeOf := fun _ => none

/-- The server with a file where the folder has the link, recorded or not there at all. -/
def behindLink (files : List (RelPath × Entry)) : World where
  disk := .empty
  server := ⟨OrdMap.ofList files, []⟩
  state := ⟨OrdMap.ofList (files.map fun e => (e.1, ⟨e.2, none⟩))⟩
  report := .default

/-- A link stays as it is where the server has nothing of its name. -/
theorem left_alone_iff_apart :
    let w := behindLink [(pathD, .directory)]
    LeftAlone .ascii (overLink w.state) w pathA := by
  intro w
  have hnone : ∀ q, atOrInside pathA q = true →
      ((overLink w.state).remote .ascii w).get q = none := by
    intro q hq
    rw [Option.eq_none_iff_forall_ne_some]
    intro e he
    have hserver : (OrdMap.empty.insert pathD Entry.directory).get q = some e :=
      (Pass.remote_eq_some he).1
    rw [OrdMap.get_insert] at hserver
    split_ifs at hserver with hd
    · rw [hd] at hq
      exact absurd hq (by decide)
    · cases hserver
  have hfile := hnone pathA (atOrInside_iff.mpr (Or.inl rfl))
  have hlink : linked.find pathA.segments = some .symlink := rfl
  refine (left_alone_iff rfl (by decide) (by decide +kernel) hlink (by decide)).mpr
    ⟨fun t n hr => ?_, fun q hq hrec => ?_⟩
  · rw [hfile] at hr
    cases hr
  · rcases hrec with ⟨t, n, hr, -⟩ | ⟨hr, -⟩ <;> rw [hnone q hq] at hr <;> cases hr

/-- **A file that was replaced by a link is deleted from the server.** -/
theorem link_removed :
    let w := behindLink [(pathA, .file ['x'] 1)]
    (overLink w.state).scan.skipped = [pathA.str] ∧
      .deleteRemote pathA ∈ ((overLink w.state).plan .ascii w).actions ∧
      ¬LeftAlone .ascii (overLink w.state) w pathA := by
  have hmem : Action.deleteRemote pathA ∈
      ((overLink (behindLink [(pathA, .file ['x'] 1)]).state).plan .ascii
        (behindLink [(pathA, .file ['x'] 1)])).actions := by
    rw [Pass.plan_eq]
    decide +kernel
  refine ⟨by decide +kernel, hmem, fun h => ?_⟩
  exact absurd ((h _ hmem).1 rfl).1 (by decide)

end Stashden.Sync
