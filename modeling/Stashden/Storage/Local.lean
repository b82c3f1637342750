import Mathlib.Data.Finset.Erase
import Mathlib.Data.Finset.Insert
import Mathlib.Logic.Relation

/-!
# Uploads against the sweeper (`api/src/storage/local.rs`, `api/src/sweeper.rs`)

One blob: its row, the lock on the row, and its file with the time the file was written. Blobs of
different content share nothing. Any number of uploads of the content, of copies and purges, and of
sweeps go on at once, statement by statement and call by call:

* an upload stages its bytes, looks whether the file is there (`try_exists`), puts its own copy in
  place or keeps it, registers the row, writes its node in a transaction that locks the row
  (`put_file`), and settles: a copy it kept goes back in place if the file has gone;
* a sweep deletes a row nothing refers to, looks at the file (`written_within`), removes it unless it
  is recent, and commits;
* a statement on the row waits for whoever holds the lock.

A call may fail: a rename that does, as it must once `sweep_staged` has cleared the copy, counts as
done where a file stands (`rename_or_discard`); a look at the file's time that does sees none
(`unread`); any other ends the upload (`fail`) or the sweep (`rollback`), which may also die anywhere.
What a transaction does to the row shows at its commit, and its `now()` is when it began (`started`).
The holders of the row stand for `ref_count`. An upload that kept no copy commits within the grace
period of writing it.

Results:
* **`promised_stands`**: what an upload was answered for stands as long as anything refers to it,
  unless a sweep removes a file other than it saw (`Overtaken`), an older copy is put over a younger
  one (`Aged`), or a rename fails over an older file (`Outdated`).
-/

namespace Stashden.Storage

/-- What refers to a blob: the node an upload wrote, or what was copied from one. -/
inductive Holder where
  | upload (i : Nat)
  | copy (k : Nat)
  deriving DecidableEq

/-- A row of `blobs`; `since` is `unreferenced_since`. -/
structure BlobRow where
  holders : Finset Holder
  since : Option Nat
  deriving DecidableEq

/-- Who holds the lock on the row. -/
inductive Actor where
  | upload (i : Nat)
  | sweep (j : Nat)
  deriving DecidableEq

/-- How far an upload has come; `stamp` is when it wrote its bytes, `kept` whether it kept its copy. -/
inductive Stage where
  | idle
  | staged (stamp : Nat)
  | absent (stamp : Nat)
  | written (stamp : Nat) (kept : Bool)
  | registered (stamp : Nat) (kept : Bool)
  | inserted (stamp : Nat) (kept : Bool)
  | acquired (stamp : Nat) (kept : Bool)
  | committed (stamp : Nat) (kept : Bool)
  | standing
  | gone (stamp : Nat)
  | answered
  | failed
  deriving DecidableEq

/-- How far a sweep of the blob has come; `seen` is the file `written_within` saw. -/
inductive Sweep where
  | idle
  | deleted
  | condemned (seen : Option Nat)
  | done
  deriving DecidableEq

structure World where
  now : Nat
  row : Option BlobRow
  lock : Option Actor
  file : Option Nat
  upload : Nat → Stage
  sweep : Nat → Sweep
  /-- An upload was answered while its node stood, and something has referred to the blob since. -/
  promised : Bool

/-- `is_recent`. -/
def isRecent (now stamp grace : Nat) : Prop := now < stamp + grace

instance (now stamp grace : Nat) : Decidable (isRecent now stamp grace) :=
  inferInstanceAs (Decidable (_ < _))

/-- `register_blob`, and the first statement of `put_file`: the row is there afterwards. -/
def register (now : Nat) (row : Option BlobRow) : BlobRow := row.getD ⟨∅, some now⟩

/-- `acquire_blob`. -/
def BlobRow.acquire (holder : Holder) (row : BlobRow) : BlobRow :=
  ⟨insert holder row.holders, none⟩

/-- `release_blob`. -/
def BlobRow.release (now : Nat) (holder : Holder) (row : BlobRow) : BlobRow :=
  ⟨row.holders.erase holder, if row.holders.erase holder = ∅ then some now else none⟩

/-- What `sweep` deletes. -/
def BlobRow.sweepable (now grace : Nat) (row : BlobRow) : Prop :=
  row.holders = ∅ ∧ ∃ since, row.since = some since ∧ since + grace < now

def World.comes (w : World) (i : Nat) (stage : Stage) : World :=
  { w with upload := Function.update w.upload i stage }

def World.turns (w : World) (j : Nat) (sweep : Sweep) : World :=
  { w with sweep := Function.update w.sweep j sweep }

/-- An upload is answered. -/
def World.answer (w : World) (i : Nat) : World :=
  { w with
    upload := Function.update w.upload i .answered
    promised := w.promised || w.row.any fun row => decide (Holder.upload i ∈ row.holders) }

/-- A statement that inserts the row where it is missing does not wait. -/
def World.insertable (w : World) : Prop :=
  w.lock = none ∨ w.row.isSome ∧ ∃ i, w.lock = some (.upload i)

/-- One statement or call of anyone. -/
inductive Step (grace : Nat) : World → World → Prop
  | pass {w : World} {d : Nat} : Step grace w { w with now := w.now + d }
  | stage {w : World} {i : Nat} (hstage : w.upload i = .idle) :
      Step grace w (w.comes i (.staged w.now))
  | present {w : World} {i stamp : Nat} (hstage : w.upload i = .staged stamp) (hfile : w.file.isSome) :
      Step grace w (w.comes i (.written stamp true))
  | absent {w : World} {i stamp : Nat} (hstage : w.upload i = .staged stamp) (hfile : w.file = none) :
      Step grace w (w.comes i (.absent stamp))
  | place {w : World} {i stamp : Nat} (hstage : w.upload i = .absent stamp) :
      Step grace w ({ w with file := some stamp }.comes i (.written stamp false))
  | placed {w : World} {i stamp : Nat} (hstage : w.upload i = .absent stamp) (hfile : w.file.isSome) :
      Step grace w (w.comes i (.written stamp false))
  | register {w : World} {i stamp started : Nat} {kept : Bool}
      (hstage : w.upload i = .written stamp kept) (hfree : w.insertable) (hstarted : started ≤ w.now) :
      Step grace w ({ w with row := some (register started w.row) }.comes i (.registered stamp kept))
  | insertNew {w : World} {i stamp : Nat} {kept : Bool} (hstage : w.upload i = .registered stamp kept)
      (hfree : w.lock = none) (hrow : w.row = none) :
      Step grace w ({ w with lock := some (.upload i) }.comes i (.inserted stamp kept))
  | insertOld {w : World} {i stamp : Nat} {kept : Bool} (hstage : w.upload i = .registered stamp kept)
      (hfree : w.insertable) (hrow : w.row.isSome) :
      Step grace w (w.comes i (.inserted stamp kept))
  | acquire {w : World} {i stamp : Nat} {kept : Bool} (hstage : w.upload i = .inserted stamp kept)
      (hfree : w.lock = some (Actor.upload i) ∨ w.lock = none ∧ w.row.isSome) :
      Step grace w ({ w with lock := some (.upload i) }.comes i (.acquired stamp kept))
  | commit {w : World} {i stamp : Nat} {kept : Bool} (hstage : w.upload i = .acquired stamp kept)
      (hgrace : kept = true ∨ isRecent w.now stamp grace) :
      Step grace w ({ w with
        row := some ((register w.now w.row).acquire (.upload i)), lock := none }.comes i
          (.committed stamp kept))
  | fail {w : World} {i : Nat} (hstage : w.upload i ≠ .answered) :
      Step grace w ({ w with
        lock := if w.lock = some (Actor.upload i) then none else w.lock }.comes i .failed)
  | settled {w : World} {i stamp : Nat} (hstage : w.upload i = .committed stamp false) :
      Step grace w (w.answer i)
  | settlePresent {w : World} {i stamp : Nat} (hstage : w.upload i = .committed stamp true)
      (hfile : w.file.isSome) : Step grace w (w.comes i .standing)
  | settleAbsent {w : World} {i stamp : Nat} (hstage : w.upload i = .committed stamp true)
      (hfile : w.file = none) : Step grace w (w.comes i (.gone stamp))
  | discard {w : World} {i : Nat} (hstage : w.upload i = .standing) : Step grace w (w.answer i)
  | putBack {w : World} {i stamp : Nat} (hstage : w.upload i = .gone stamp) :
      Step grace w ({ w with file := some stamp }.answer i)
  | foundBack {w : World} {i stamp : Nat} (hstage : w.upload i = .gone stamp) (hfile : w.file.isSome) :
      Step grace w (w.answer i)
  | copy {w : World} {k : Nat} {row : BlobRow} (hrow : w.row = some row) (hlock : w.lock = none)
      (hheld : row.holders ≠ ∅) : Step grace w { w with row := some (row.acquire (.copy k)) }
  | purge {w : World} {holder : Holder} {row : BlobRow} {started : Nat} (hrow : w.row = some row)
      (hlock : w.lock = none) (hheld : holder ∈ row.holders) (hstarted : started ≤ w.now) :
      Step grace w { w with
        row := some (row.release started holder)
        promised := w.promised && decide (row.holders.erase holder ≠ ∅) }
  | delete {w : World} {j started : Nat} {row : BlobRow} (hsweep : w.sweep j = .idle)
      (hlock : w.lock = none) (hrow : w.row = some row) (hstarted : started ≤ w.now)
      (hdue : row.sweepable started grace) :
      Step grace w ({ w with lock := some (.sweep j) }.turns j .deleted)
  | spare {w : World} {j stamp : Nat} (hsweep : w.sweep j = .deleted) (hfile : w.file = some stamp)
      (hrecent : isRecent w.now stamp grace) : Step grace w (w.turns j .done)
  | condemn {w : World} {j : Nat} (hsweep : w.sweep j = .deleted)
      (hold : ∀ stamp, w.file = some stamp → ¬ isRecent w.now stamp grace) :
      Step grace w (w.turns j (.condemned w.file))
  | unread {w : World} {j : Nat} (hsweep : w.sweep j = .deleted) :
      Step grace w (w.turns j (.condemned none))
  | remove {w : World} {j : Nat} {seen : Option Nat} (hsweep : w.sweep j = .condemned seen) :
      Step grace w ({ w with file := none }.turns j .done)
  | rollback {w : World} {j : Nat} (hsweep : w.sweep j ≠ .idle) :
      Step grace w ({ w with lock := none }.turns j .idle)
  | sweepCommit {w : World} {j : Nat} (hsweep : w.sweep j = .done) :
      Step grace w ({ w with row := none, lock := none }.turns j .idle)

/-- A sweep removes a file that is not the one it saw. -/
def Overtaken (w w' : World) : Prop := ∃ j seen stamp, w.sweep j = .condemned seen ∧
  w.file = some stamp ∧ seen ≠ some stamp ∧ w' = { w with file := none }.turns j .done

/-- An older copy is put over a younger one. -/
def Aged (w w' : World) : Prop := ∃ i stamp younger, w.file = some younger ∧ stamp < younger ∧
  (w.upload i = .absent stamp ∧ w' = { w with file := some stamp }.comes i (.written stamp false) ∨
    w.upload i = .gone stamp ∧ w' = { w with file := some stamp }.answer i)

/-- A rename fails over an older file, and the upload goes on with that. -/
def Outdated (grace : Nat) (w w' : World) : Prop := ∃ i stamp older, w.file = some older ∧
  older < stamp ∧ isRecent w.now stamp grace ∧ w.upload i = .absent stamp ∧
    w' = w.comes i (.written stamp false)

/-- A step in which nobody acts on a file other than the one it counts on. -/
def CleanStep (grace : Nat) (w w' : World) : Prop :=
  Step grace w w' ∧ ¬ Overtaken w w' ∧ ¬ Aged w w' ∧ ¬ Outdated grace w w'

/-! ## What holds of a blob -/

/-- Something refers to the blob. -/
def Held (w : World) : Prop := ∃ row, w.row = some row ∧ row.holders ≠ ∅

/-- The node that upload `i` wrote refers to the blob. -/
def Refers (w : World) (i : Nat) : Prop := ∃ row, w.row = some row ∧ Holder.upload i ∈ row.holders

/-- A file no older than `stamp` is there, or the grace period of `stamp` is over. -/
def Guarded (grace : Nat) (w : World) (stamp : Nat) : Prop :=
  (∃ m, w.file = some m ∧ stamp ≤ m) ∨ ¬ isRecent w.now stamp grace

/-- Sweep `j` has deleted a row nothing refers to, and has yet to commit. -/
def Swept (w : World) (j : Nat) : Prop := w.lock = some (.sweep j) ∧ ¬ Held w

def Stage.Ok (grace : Nat) (w : World) (i : Nat) : Stage → Prop
  | .written stamp kept => kept = false → Guarded grace w stamp
  | .registered stamp kept => kept = false → Guarded grace w stamp
  | .inserted stamp kept => kept = false → Guarded grace w stamp
  | .acquired stamp kept => w.lock = some (.upload i) ∧ (kept = false → Guarded grace w stamp)
  | .committed _ kept => kept = false → Refers w i → w.file.isSome
  | .standing => Refers w i → w.file.isSome
  | .answered => Refers w i → w.file.isSome
  | _ => True

def Sweep.Ok (grace : Nat) (w : World) (j : Nat) : Sweep → Prop
  | .idle => True
  | .deleted => Swept w j
  | .condemned seen => Swept w j ∧ ∀ stamp, seen = some stamp → ¬ isRecent w.now stamp grace
  | .done => Swept w j

/-- The invariant. -/
structure Sound (grace : Nat) (w : World) : Prop where
  uploads : ∀ i, (w.upload i).Ok grace w i
  sweeps : ∀ j, (w.sweep j).Ok grace w j
  promised : w.promised = true → w.file.isSome ∧ Held w

/-- A blob nobody is uploading or sweeping. -/
structure Quiet (w : World) : Prop where
  upload : ∀ i, w.upload i = .idle
  sweep : ∀ j, w.sweep j = .idle
  promised : w.promised = false

variable {grace stamp i j k : Nat} {w w' s : World} {stage : Stage} {sweep : Sweep} {kept : Bool}
  {row : BlobRow}

theorem Refers.held (h : Refers w i) : Held w := by
  obtain ⟨row, hrow, hmem⟩ := h
  exact ⟨row, hrow, Finset.ne_empty_of_mem hmem⟩

theorem late_mono (hnow : w.now ≤ s.now) (h : ¬ isRecent w.now stamp grace) :
    ¬ isRecent s.now stamp grace := fun hrecent => h (hnow.trans_lt hrecent)

/-- What upload `j` does not mind. -/
structure Leaves (grace : Nat) (w s : World) (j : Nat) : Prop where
  guarded : ∀ stamp, Guarded grace w stamp → Guarded grace s stamp
  lock : w.lock = some (.upload j) → s.lock = some (.upload j)
  refers : Refers s j → Refers w j ∧ (w.file.isSome → s.file.isSome)

theorem Stage.Ok.left (h : stage.Ok grace w j) (hleaves : Leaves grace w s j) :
    stage.Ok grace s j := by
  cases stage with
  | written stamp kept => exact fun hkept => hleaves.guarded stamp (h hkept)
  | registered stamp kept => exact fun hkept => hleaves.guarded stamp (h hkept)
  | inserted stamp kept => exact fun hkept => hleaves.guarded stamp (h hkept)
  | acquired stamp kept => exact ⟨hleaves.lock h.1, fun hkept => hleaves.guarded stamp (h.2 hkept)⟩
  | committed stamp kept =>
    intro hkept hrefers
    obtain ⟨hback, hfile⟩ := hleaves.refers hrefers
    exact hfile (h hkept hback)
  | standing =>
    intro hrefers
    obtain ⟨hback, hfile⟩ := hleaves.refers hrefers
    exact hfile (h hback)
  | answered =>
    intro hrefers
    obtain ⟨hback, hfile⟩ := hleaves.refers hrefers
    exact hfile (h hback)
  | _ => trivial

theorem Sweep.Ok.left (h : sweep.Ok grace w j) (hnow : w.now ≤ s.now)
    (hswept : Swept w j → Swept s j) : sweep.Ok grace s j := by
  cases sweep with
  | idle => trivial
  | deleted => exact hswept h
  | condemned seen => exact ⟨hswept h.1, fun stamp hseen => late_mono hnow (h.2 stamp hseen)⟩
  | done => exact hswept h

/-- What neither the file, the row nor the lock notices. -/
theorem leaves_same (hnow : w.now ≤ s.now) (hfile : s.file = w.file) (hlock : s.lock = w.lock)
    (hrow : s.row = w.row) : Leaves grace w s j where
  guarded _ h := by
    rcases h with ⟨m, hm, hle⟩ | hlate
    · exact Or.inl ⟨m, hfile.trans hm, hle⟩
    · exact Or.inr (late_mono hnow hlate)
  lock h := hlock.trans h
  refers h := by
    obtain ⟨row, hs, hmem⟩ := h
    exact ⟨⟨row, hrow ▸ hs, hmem⟩, fun hfound => hfile ▸ hfound⟩

theorem swept_same (hlock : s.lock = w.lock) (hrow : s.row = w.row) (h : Swept w j) : Swept s j := by
  refine ⟨hlock.trans h.1, fun hheld => h.2 ?_⟩
  obtain ⟨row, hs, hne⟩ := hheld
  exact ⟨row, hrow ▸ hs, hne⟩

theorem comes_upload (w : World) (i j : Nat) (stage : Stage) :
    (w.comes i stage).upload j = if j = i then stage else w.upload j := by
  by_cases h : j = i
  · rw [if_pos h, h]
    exact Function.update_self i stage w.upload
  · rw [if_neg h]
    exact Function.update_of_ne h stage w.upload

theorem turns_sweep (w : World) (i j : Nat) (sweep : Sweep) :
    (w.turns i sweep).sweep j = if j = i then sweep else w.sweep j := by
  by_cases h : j = i
  · rw [if_pos h, h]
    exact Function.update_self i sweep w.sweep
  · rw [if_neg h]
    exact Function.update_of_ne h sweep w.sweep

theorem Stage.Ok.comes {other : Stage} (h : stage.Ok grace w j) :
    stage.Ok grace (w.comes i other) j := h

/-- An upload goes on. -/
theorem Sound.comes (h : Sound grace w) (hupload : s.upload = w.upload) (hsweep : s.sweep = w.sweep)
    (hnow : w.now ≤ s.now) (hstage : stage.Ok grace s i) (hleaves : ∀ j, j ≠ i → Leaves grace w s j)
    (hswept : ∀ j, Swept w j → Swept s j) (hpromised : s.promised = true → s.file.isSome ∧ Held s) :
    Sound grace (s.comes i stage) where
  uploads j := by
    rw [comes_upload, hupload]
    by_cases hj : j = i
    · rw [if_pos hj, hj]
      exact hstage.comes
    · rw [if_neg hj]
      exact ((h.uploads j).left (hleaves j hj)).comes
  sweeps j := by
    have hold := (h.sweeps j).left hnow (hswept j)
    rw [← hsweep] at hold
    exact hold
  promised := hpromised

/-- An upload goes on and changes nothing. -/
theorem Sound.goes (h : Sound grace w) (hstage : stage.Ok grace w i) :
    Sound grace (w.comes i stage) :=
  h.comes rfl rfl le_rfl hstage (fun _ _ => leaves_same le_rfl rfl rfl rfl) (fun _ => id) h.promised

/-- An upload is answered, and finds its file there as long as its node stands. -/
theorem Sound.answer (h : Sound grace (s.comes i .answered)) : Sound grace (s.answer i) where
  uploads := h.uploads
  sweeps := h.sweeps
  promised hpromised := by
    rcases (Bool.or_eq_true _ _).mp hpromised with hold | hnew
    · exact h.promised hold
    · obtain ⟨row, hrow, hmem⟩ := (Option.any_eq_true _ _).mp hnew
      have hrefers : Refers s i := ⟨row, hrow, of_decide_eq_true hmem⟩
      have hok := h.uploads i
      rw [comes_upload, if_pos rfl] at hok
      exact ⟨hok hrefers, hrefers.held⟩

/-- A sweep goes on. -/
theorem Sound.turns (h : Sound grace w) (hupload : s.upload = w.upload) (hsweep : s.sweep = w.sweep)
    (hnow : w.now ≤ s.now) (hturn : sweep.Ok grace s i) (hleaves : ∀ j, Leaves grace w s j)
    (hswept : ∀ j, j ≠ i → Swept w j → Swept s j)
    (hpromised : s.promised = true → s.file.isSome ∧ Held s) : Sound grace (s.turns i sweep) where
  uploads j := by
    have hold := (h.uploads j).left (hleaves j)
    rw [← hupload] at hold
    exact hold
  sweeps j := by
    rw [turns_sweep, hsweep]
    by_cases hj : j = i
    · rw [if_pos hj, hj]
      cases sweep with
      | _ => exact hturn
    · rw [if_neg hj]
      have hold := (h.sweeps j).left hnow (hswept j hj)
      cases hother : w.sweep j with
      | _ =>
        rw [hother] at hold
        exact hold
  promised := hpromised

/-! ## One step -/

theorem mem_register {now : Nat} {row : Option BlobRow} {holder : Holder}
    (h : holder ∈ (register now row).holders) : ∃ old, row = some old ∧ holder ∈ old.holders := by
  cases row with
  | none => exact absurd h (Finset.notMem_empty holder)
  | some old => exact ⟨old, rfl, h⟩

theorem not_swept_of_upload (hlock : w.lock = some (Actor.upload i)) : ¬ Swept w j := by
  intro hswept
  have hheld := hlock.symm.trans hswept.1
  cases hheld

theorem not_swept_of_free (hlock : w.lock = none) : ¬ Swept w j := by
  intro hswept
  have hheld := hlock.symm.trans hswept.1
  cases hheld

/-- A file put in place is there for everyone, and is no older than the one it replaces. -/
theorem leaves_place (hyoung : ∀ m, w.file = some m → m ≤ stamp) :
    Leaves grace w { w with file := some stamp } j where
  guarded before h := by
    rcases h with ⟨m, hm, hle⟩ | hlate
    · exact Or.inl ⟨stamp, rfl, hle.trans (hyoung m hm)⟩
    · exact Or.inr hlate
  lock := id
  refers h := ⟨h, fun _ => rfl⟩

theorem sound_place (h : Sound grace w) (hyoung : ∀ m, w.file = some m → m ≤ stamp)
    (hstage : stage.Ok grace { w with file := some stamp } i) :
    Sound grace ({ w with file := some stamp }.comes i stage) :=
  h.comes rfl rfl le_rfl hstage (fun _ _ => leaves_place hyoung) (fun _ => id) fun hpromised =>
    ⟨rfl, (h.promised hpromised).2⟩

/-- Who takes or leaves the lock without another holding it. -/
theorem leaves_lock {lock : Option Actor} (hlock : w.lock ≠ some (Actor.upload j)) :
    Leaves grace w { w with lock } j where
  guarded _ := id
  lock h := absurd h hlock
  refers h := ⟨h, id⟩

theorem sound_register {started : Nat} (h : Sound grace w) (hstage : stage.Ok grace w i) :
    Sound grace ({ w with row := some (register started w.row) }.comes i stage) := by
  have hback : ∀ {j}, Refers { w with row := some (register started w.row) } j → Refers w j := by
    rintro j ⟨_, ⟨⟩, hmem⟩
    exact mem_register hmem
  have hheld : Held { w with row := some (register started w.row) } → Held w := by
    rintro ⟨_, ⟨⟩, hne⟩
    obtain ⟨holder, hmem⟩ := Finset.nonempty_iff_ne_empty.mpr hne
    obtain ⟨old, hold, hmem⟩ := mem_register hmem
    exact ⟨old, hold, Finset.ne_empty_of_mem hmem⟩
  have hleaves : ∀ j, Leaves grace w { w with row := some (register started w.row) } j := fun j =>
    ⟨fun _ => id, id, fun hrefers => ⟨hback hrefers, id⟩⟩
  refine h.comes rfl rfl le_rfl (hstage.left (hleaves i)) (fun j _ => hleaves j)
    (fun j hswept => ⟨hswept.1, fun hnow => hswept.2 (hheld hnow)⟩) fun hpromised => ?_
  obtain ⟨hfile, row, hrow, hne⟩ := h.promised hpromised
  refine ⟨hfile, row, ?_, hne⟩
  rw [hrow]
  rfl

theorem sound_commit (h : Sound grace w) (hstage : w.upload i = .acquired stamp kept)
    (hgrace : kept = true ∨ isRecent w.now stamp grace) :
    Sound grace ({ w with
      row := some ((register w.now w.row).acquire (.upload i)), lock := none }.comes i
        (.committed stamp kept)) := by
  have hok := h.uploads i
  rw [hstage] at hok
  obtain ⟨hlock, hguarded⟩ := hok
  refine h.comes rfl rfl le_rfl ?_ (fun j hj => ⟨fun _ => id, fun hmine => ?_, ?_⟩)
    (fun j hswept => absurd hswept (not_swept_of_upload hlock)) fun hpromised =>
      ⟨(h.promised hpromised).1, _, rfl, Finset.insert_ne_empty _ _⟩
  · intro hkept _
    rcases hguarded hkept with ⟨m, hm, -⟩ | hlate
    · exact hm ▸ rfl
    · rcases hgrace with hyes | hrecent
      · exact absurd (hkept.symm.trans hyes) Bool.false_ne_true
      · exact absurd hrecent hlate
  · rw [hlock] at hmine
    cases hmine
    exact absurd rfl hj
  · rintro ⟨_, ⟨⟩, hmem⟩
    rcases Finset.mem_insert.mp hmem with hsame | hold
    · cases hsame
      exact absurd rfl hj
    · exact ⟨mem_register hold, id⟩

/-- The copies and the purges go on with the lock free. -/
theorem sound_row {promised : Bool} {row' : BlobRow} (h : Sound grace w) (hrow : w.row = some row)
    (hlock : w.lock = none)
    (hholders : ∀ i, Holder.upload i ∈ row'.holders → Holder.upload i ∈ row.holders)
    (hpromised : promised = true → w.promised = true ∧ row'.holders ≠ ∅) :
    Sound grace { w with row := some row', promised } where
  uploads i := by
    refine (h.uploads i).left ⟨fun _ => id, fun hmine => ?_, ?_⟩
    · exact hmine
    · rintro ⟨_, ⟨⟩, hmem⟩
      exact ⟨⟨row, hrow, hholders i hmem⟩, id⟩
  sweeps j := (h.sweeps j).left le_rfl fun hswept => absurd hswept (not_swept_of_free hlock)
  promised hyes := by
    obtain ⟨hold, hne⟩ := hpromised hyes
    exact ⟨(h.promised hold).1, row', rfl, hne⟩

theorem sound_fail (h : Sound grace w) : Sound grace ({ w with
    lock := if w.lock = some (Actor.upload i) then none else w.lock }.comes i .failed) := by
  refine h.comes rfl rfl le_rfl trivial (fun j hj => ⟨fun _ => id, fun hmine => ?_,
    fun hrefers => ⟨hrefers, id⟩⟩) (fun j hswept => ⟨?_, hswept.2⟩) h.promised
  · have hother : w.lock ≠ some (Actor.upload i) := by
      rw [hmine]
      rintro ⟨⟩
      exact hj rfl
    exact (if_neg hother).trans hmine
  · have hother : w.lock ≠ some (Actor.upload i) := by
      rw [hswept.1]
      rintro ⟨⟩
    exact (if_neg hother).trans hswept.1

/-- A sweep that leaves the file as it is. -/
theorem sound_turn (h : Sound grace w) (hturn : sweep.Ok grace w j) :
    Sound grace (w.turns j sweep) :=
  h.turns rfl rfl le_rfl hturn (fun _ => leaves_same le_rfl rfl rfl rfl) (fun _ _ => id) h.promised

theorem Sound.unpromised (h : Sound grace w) (hswept : Swept w j) : w.promised = false := by
  by_contra hyes
  exact hswept.2 (h.promised (Bool.eq_true_of_not_eq_false hyes)).2

/-- A sweep under way holds the lock of a row nothing refers to. -/
theorem Sound.swept (h : Sound grace w) (hsweep : w.sweep j ≠ .idle) : Swept w j := by
  have hok := h.sweeps j
  cases hturn : w.sweep j with
  | idle => exact absurd hturn hsweep
  | condemned seen =>
    rw [hturn] at hok
    exact hok.1
  | _ =>
    rw [hturn] at hok
    exact hok

/-- A sweep removes the file it saw, which nobody in time counts on. -/
theorem sound_remove {seen : Option Nat} (h : Sound grace w) (hsweep : w.sweep j = .condemned seen)
    (hseen : ∀ m, w.file = some m → seen = some m) :
    Sound grace ({ w with file := none }.turns j .done) := by
  have hok := h.sweeps j
  rw [hsweep] at hok
  obtain ⟨hswept, hlate⟩ := hok
  refine h.turns rfl rfl le_rfl hswept (fun i => ⟨fun stamp hguarded => ?_, id, fun hrefers => ?_⟩)
    (fun _ _ => id) fun hpromised => ?_
  · rcases hguarded with ⟨m, hm, hle⟩ | hover
    · exact Or.inr fun hrecent => hlate m (hseen m hm)
        (hrecent.trans_le (Nat.add_le_add_right hle grace))
    · exact Or.inr hover
  · exact absurd hrefers.held hswept.2
  · exact absurd hpromised (Bool.eq_false_iff.mp (h.unpromised hswept))

/-- A sweep lets go of the lock, with the row or without. -/
theorem sound_unlock {row' : Option BlobRow} (h : Sound grace w) (hswept : Swept w j)
    (hrow : ∀ row, row' = some row → w.row = some row) :
    Sound grace ({ w with row := row', lock := none }.turns j .idle) := by
  refine h.turns rfl rfl le_rfl trivial (fun i => ⟨fun _ => id, fun hmine => ?_, ?_⟩)
    (fun k hk hother => ?_) fun hpromised => ?_
  · cases hswept.1.symm.trans hmine
  · rintro ⟨row, hs, hmem⟩
    exact absurd ⟨row, hrow row hs, Finset.ne_empty_of_mem hmem⟩ hswept.2
  · cases hswept.1.symm.trans hother.1
    exact absurd rfl hk
  · exact absurd hpromised (Bool.eq_false_iff.mp (h.unpromised hswept))

theorem sound_step (h : Sound grace w) (hstep : CleanStep grace w w') : Sound grace w' := by
  obtain ⟨hstep, hover, haged, houtdated⟩ := hstep
  cases hstep with
  | @pass d =>
    exact ⟨fun i => (h.uploads i).left (leaves_same (Nat.le_add_right _ _) rfl rfl rfl),
      fun j => (h.sweeps j).left (Nat.le_add_right _ _) (swept_same rfl rfl), h.promised⟩
  | stage hstage => exact h.goes trivial
  | present hstage hfile => exact h.goes fun hkept => by cases hkept
  | absent hstage hfile => exact h.goes trivial
  | @place i stamp hstage =>
    refine sound_place h (fun m hm => ?_) fun _ => Or.inl ⟨stamp, rfl, le_rfl⟩
    by_contra hlt
    exact haged ⟨i, stamp, m, hm, Nat.lt_of_not_le hlt, Or.inl ⟨hstage, rfl⟩⟩
  | @placed i stamp hstage hfile =>
    obtain ⟨m, hm⟩ := Option.isSome_iff_exists.mp hfile
    refine h.goes fun _ => ?_
    by_cases hrecent : isRecent w.now stamp grace
    · refine Or.inl ⟨m, hm, ?_⟩
      by_contra hlt
      exact houtdated ⟨i, stamp, m, hm, Nat.lt_of_not_le hlt, hrecent, hstage, rfl⟩
    · exact Or.inr hrecent
  | @register i stamp started kept hstage hfree hstarted =>
    have hok := h.uploads i
    rw [hstage] at hok
    exact sound_register h hok
  | @insertNew i stamp kept hstage hlock hrow =>
    have hok := h.uploads i
    rw [hstage] at hok
    exact h.comes rfl rfl le_rfl hok (fun j _ => leaves_lock (hlock ▸ (Option.some_ne_none _).symm))
      (fun j hswept => absurd hswept (not_swept_of_free hlock)) h.promised
  | @insertOld i stamp kept hstage hfree hrow =>
    have hok := h.uploads i
    rw [hstage] at hok
    exact h.goes hok
  | @acquire i stamp kept hstage hfree =>
    have hok := h.uploads i
    rw [hstage] at hok
    have hothers : ∀ j, j ≠ i → w.lock ≠ some (Actor.upload j) := by
      rintro j hj hmine
      rcases hfree with hlock | ⟨hlock, -⟩
      · cases hlock.symm.trans hmine
        exact hj rfl
      · cases hlock.symm.trans hmine
    have hnone : ∀ j, ¬ Swept w j := by
      intro j
      rcases hfree with hlock | ⟨hlock, -⟩
      · exact not_swept_of_upload hlock
      · exact not_swept_of_free hlock
    exact h.comes rfl rfl le_rfl ⟨rfl, hok⟩ (fun j hj => leaves_lock (hothers j hj))
      (fun j hswept => absurd hswept (hnone j)) h.promised
  | commit hstage hgrace => exact sound_commit h hstage hgrace
  | fail hstage => exact sound_fail h
  | @settled i stamp hstage =>
    have hok := h.uploads i
    rw [hstage] at hok
    exact Sound.answer (h.goes (hok rfl))
  | settlePresent hstage hfile => exact h.goes fun _ => hfile
  | settleAbsent hstage hfile => exact h.goes trivial
  | @discard i hstage =>
    have hok := h.uploads i
    rw [hstage] at hok
    exact Sound.answer (h.goes hok)
  | @putBack i stamp hstage =>
    refine Sound.answer (sound_place h (fun m hm => ?_) fun _ => rfl)
    by_contra hlt
    exact haged ⟨i, stamp, m, hm, Nat.lt_of_not_le hlt, Or.inr ⟨hstage, rfl⟩⟩
  | foundBack hstage hfile => exact Sound.answer (h.goes fun _ => hfile)
  | @copy k row hrow hlock hheld =>
    refine sound_row h hrow hlock (fun i hmem => ?_) fun hpromised =>
      ⟨hpromised, Finset.insert_ne_empty _ _⟩
    exact (Finset.mem_insert.mp hmem).resolve_left Holder.noConfusion
  | @purge holder row started hrow hlock hheld hstarted =>
    refine sound_row h hrow hlock (fun i hmem => Finset.mem_of_mem_erase hmem) fun hpromised => ?_
    obtain ⟨hold, hne⟩ := (Bool.and_eq_true _ _).mp hpromised
    exact ⟨hold, of_decide_eq_true hne⟩
  | @delete j started row hsweep hlock hrow hstarted hdue =>
    have hempty : ¬ Held { w with lock := some (Actor.sweep j) } := by
      rintro ⟨other, hother, hne⟩
      cases hrow.symm.trans hother
      exact hne hdue.1
    exact h.turns rfl rfl le_rfl ⟨rfl, hempty⟩
      (fun i => leaves_lock (hlock ▸ (Option.some_ne_none _).symm))
      (fun k _ hswept => absurd hswept (not_swept_of_free hlock)) h.promised
  | @spare j stamp hsweep hfile hrecent =>
    have hok := h.sweeps j
    rw [hsweep] at hok
    exact sound_turn h hok
  | @condemn j hsweep hold =>
    have hok := h.sweeps j
    rw [hsweep] at hok
    exact sound_turn h ⟨hok, hold⟩
  | @unread j hsweep =>
    have hok := h.sweeps j
    rw [hsweep] at hok
    exact sound_turn h ⟨hok, fun _ hseen => by cases hseen⟩
  | @remove j seen hsweep =>
    refine sound_remove h hsweep fun m hm => ?_
    by_contra hother
    exact hover ⟨j, seen, m, hsweep, hm, hother, rfl⟩
  | @rollback j hsweep => exact sound_unlock h (h.swept hsweep) fun _ => id
  | @sweepCommit j hsweep =>
    have hok := h.sweeps j
    rw [hsweep] at hok
    exact sound_unlock h hok fun _ hnone => absurd hnone (Option.some_ne_none _).symm

/-! ## Runs -/

theorem sound_quiet (h : Quiet w) : Sound grace w where
  uploads i := by
    rw [h.upload i]
    trivial
  sweeps j := by
    rw [h.sweep j]
    trivial
  promised hyes := absurd hyes (Bool.eq_false_iff.mp h.promised)

theorem sound_run (h : Quiet w) (hrun : Relation.ReflTransGen (CleanStep grace) w w') :
    Sound grace w' := by
  induction hrun with
  | refl => exact sound_quiet h
  | tail _ hstep ih => exact sound_step ih hstep

/-- **A 201 means the bytes are there.** In any interleaving of uploads of one content, copies, purges
and sweeps, from any state in which none is under way: the file of an upload that was answered is
there as long as its node stands, and as long as anything has referred to the blob since, unless a
sweep removed a file other than it saw, an older copy was put over a younger, or a rename failed over
an older file. -/
theorem promised_stands (h : Quiet w) (hrun : Relation.ReflTransGen (CleanStep grace) w w') :
    (∀ i, w'.upload i = .answered → Refers w' i → w'.file.isSome) ∧
      (w'.promised = true → w'.file.isSome ∧ Held w') := by
  have hsound := sound_run h hrun
  refine ⟨fun i hanswered => ?_, hsound.promised⟩
  have hok := hsound.uploads i
  rw [hanswered] at hok
  exact hok

/-- A run at whose end no upload is about to put its copy in place. -/
structure Calm (grace : Nat) (w s : World) : Prop where
  run : Relation.ReflTransGen (CleanStep grace) w s
  upload : ∀ i stamp, s.upload i ≠ .absent stamp

theorem Calm.upload_step {t : World} (h : Calm grace w s) (hstep : Step grace s t)
    (hupload : t.upload = Function.update s.upload i stage) (hsweep : t.sweep = s.sweep)
    (hfile : t.file = s.file ∨ s.file = none) (hstage : ∀ stamp, stage ≠ .absent stamp) :
    Calm grace w t := by
  refine ⟨h.run.tail ⟨hstep, ?_, ?_, ?_⟩, fun j stamp habsent => ?_⟩
  · rintro ⟨j, seen, stamp, hcondemned, -, -, heq⟩
    have hdone : t.sweep j = .done := by
      rw [heq, turns_sweep, if_pos rfl]
    rw [hsweep, hcondemned] at hdone
    cases hdone
  · rintro ⟨j, stamp, younger, hyounger, hlt, hplaced⟩
    have hnow : t.file = some stamp := by
      rcases hplaced with ⟨-, heq⟩ | ⟨-, heq⟩
      · rw [heq]
        rfl
      · rw [heq]
        rfl
    rcases hfile with hsame | hnone
    · cases hnow.symm.trans (hsame.trans hyounger)
      exact lt_irrefl _ hlt
    · cases hnone.symm.trans hyounger
  · rintro ⟨j, stamp, -, -, -, -, habsent, -⟩
    exact h.upload j stamp habsent
  · rw [hupload] at habsent
    by_cases hj : j = i
    · rw [hj, Function.update_self] at habsent
      exact hstage stamp habsent
    · rw [Function.update_of_ne hj] at habsent
      exact h.upload j stamp habsent

theorem Calm.sweep_step {t : World} (h : Calm grace w s) (hstep : Step grace s t)
    (hupload : t.upload = s.upload)
    (hfile : t.file = s.file ∨ ∀ j seen, s.sweep j = .condemned seen → seen = s.file) :
    Calm grace w t := by
  refine ⟨h.run.tail ⟨hstep, ?_, ?_, ?_⟩, hupload ▸ h.upload⟩
  · rintro ⟨j, seen, stamp, hcondemned, hfound, hother, heq⟩
    rcases hfile with hsame | hseen
    · rw [heq] at hsame
      cases hsame.trans hfound
    · exact hother ((hseen j seen hcondemned).trans hfound)
  · rintro ⟨j, stamp, younger, -, -, ⟨habsent, -⟩ | ⟨hgone, heq⟩⟩
    · exact h.upload j stamp habsent
    · have hanswered : t.upload j = .answered := by
        rw [heq]
        exact Function.update_self j _ _
      rw [hupload, hgone] at hanswered
      cases hanswered
  · rintro ⟨j, stamp, -, -, -, -, habsent, -⟩
    exact h.upload j stamp habsent

/-- A sweep takes the file an upload has adopted and dies before it commits; the upload puts its own
copy back. -/
theorem promised_stands_swept : ∃ w, Relation.ReflTransGen (CleanStep 1)
    ⟨5, some ⟨∅, some 0⟩, none, some 0, fun _ => .idle, fun _ => .idle, false⟩ w ∧
      w.upload 0 = .answered ∧ Refers w 0 ∧ w.file.isSome := by
  have hquiet : Quiet ⟨5, some ⟨∅, some 0⟩, none, some 0, fun _ => .idle, fun _ => .idle, false⟩ :=
    ⟨fun _ => rfl, fun _ => rfl, rfl⟩
  have hrun : Calm 1 ⟨5, some ⟨∅, some 0⟩, none, some 0, fun _ => .idle, fun _ => .idle, false⟩
      ⟨5, some ⟨∅, some 0⟩, none, some 0, fun _ => .idle, fun _ => .idle, false⟩ :=
    ⟨.refl, fun _ _ h => by cases h⟩
  have hrun := hrun.upload_step (.stage (i := 0) rfl) rfl rfl (Or.inl rfl) fun _ h => by cases h
  have hrun := hrun.upload_step (.present (i := 0) rfl rfl) rfl rfl (Or.inl rfl) fun _ h => by cases h
  have hrun := hrun.sweep_step (.delete (j := 0) rfl rfl rfl le_rfl ⟨rfl, 0, rfl, by decide⟩) rfl
    (Or.inl rfl)
  have hrun := hrun.sweep_step (.condemn (j := 0) rfl fun _ h => by cases h; decide) rfl (Or.inl rfl)
  have hrun := hrun.sweep_step (.remove (j := 0) rfl) rfl (Or.inr fun j seen hseen => by
    rw [turns_sweep] at hseen
    split_ifs at hseen with hj
    · cases hseen
      rfl
    · rw [turns_sweep, if_neg hj] at hseen
      cases hseen)
  have hrun := hrun.sweep_step (.rollback (j := 0) fun h => by cases h) rfl (Or.inl rfl)
  have hrun := hrun.upload_step (.register (i := 0) rfl (Or.inl rfl) le_rfl) rfl rfl (Or.inl rfl)
    fun _ h => by cases h
  have hrun := hrun.upload_step (.insertOld (i := 0) rfl (Or.inl rfl) rfl) rfl rfl (Or.inl rfl)
    fun _ h => by cases h
  have hrun := hrun.upload_step (.acquire (i := 0) rfl (Or.inr ⟨rfl, rfl⟩)) rfl rfl (Or.inl rfl)
    fun _ h => by cases h
  have hrun := hrun.upload_step (.commit (i := 0) rfl (Or.inl rfl)) rfl rfl (Or.inl rfl)
    fun _ h => by cases h
  have hrun := hrun.upload_step (.settleAbsent (i := 0) rfl rfl) rfl rfl (Or.inl rfl)
    fun _ h => by cases h
  have hrun := hrun.upload_step (.putBack (i := 0) rfl) rfl rfl (Or.inr rfl) fun _ h => by cases h
  refine ⟨_, hrun.run, rfl, ?_, ?_⟩
  · exact ⟨_, rfl, Finset.mem_insert_self _ _⟩
  · exact (promised_stands hquiet hrun.run).1 0 rfl ⟨_, rfl, Finset.mem_insert_self _ _⟩

end Stashden.Storage
