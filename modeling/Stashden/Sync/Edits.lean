import Stashden.Sync.Interrupted
import Stashden.Sync.Walk

/-!
# A pass while its user works (`engine.rs:119-336`, `local.rs:86-137`)

A pass is not one step: it walks the folder name by name, plans from what it found, and then makes
its calls one by one, while the user goes on writing files. `Moment` is where the two stand
together: the world, the times the files show, what the walk has found so far, and the edits of the
user that no later edit of his replaced. `Moment.Step` is one step of either, an `Event` its name.

The times are read where the engine reads them: `fingerprint` takes the one the walk looked at, and
what a download or a conflict records is the time its file shows by then (`Deed.readBack`). An edit
brings a content and a time that are new.

* `toCall_deeds`: the deeds of an action are its calls, with the times filled in.
* `Deed.Spares`, `Event.Spares`: what happens falls on no edit the pass has not seen.
-/

namespace Stashden.Sync

open Lib Stashden.Core RelPath EngineM

/-- A content the user wrote to a file while the pass ran. -/
structure LocalEdit where
  path : RelPath
  tag : Str
  size : Nat
  mtimeMs : Int
  deriving DecidableEq

def LocalEdit.content (e : LocalEdit) : Entry := .file e.tag e.size

/-! ## What the engine does, one call at a time -/

/-- A call, or the record of a file under the time it shows when it is recorded (`mtime_of`). -/
inductive Deed where
  | call (c : Call)
  | readBack (path : RelPath) (entry : Entry)

/-- A call whose record reads the time back. -/
def Call.timed : Call → Deed
  | .record path entry _ => .readBack path entry
  | c => .call c

/-- The deeds of an action: what `download` and `KeepBoth` record, they read back. -/
def deeds (pass : Pass) (remote : Snapshot) (a : Action) : List Deed :=
  if a.fetches then (calls pass remote a).map Call.timed else (calls pass remote a).map .call

/-- The call of a pass that knew the times. -/
def Deed.toCall (pass : Pass) : Deed → Call
  | .call c => c
  | .readBack path entry => .record path entry (pass.mtimeOf path)

theorem toCall_timed_downloadCalls {pass : Pass} {remote : Snapshot} (p : RelPath) :
    (downloadCalls pass remote p).map (fun c => c.timed.toCall pass) =
      downloadCalls pass remote p := by
  unfold downloadCalls
  cases remote.get p with
  | none => rfl
  | some entry => cases partialOf p <;> rfl

/-- **The deeds of an action are its calls.** -/
theorem toCall_deeds (pass : Pass) (remote : Snapshot) (a : Action) :
    (deeds pass remote a).map (Deed.toCall pass) = calls pass remote a := by
  have hdown : ∀ p, (downloadCalls pass remote p).map (fun c => c.timed.toCall pass) =
      downloadCalls pass remote p := toCall_timed_downloadCalls
  unfold deeds
  split_ifs with hf
  · rw [List.map_map]
    cases a with
    | download p => simpa [calls, Function.comp_def, Call.timed, Deed.toCall] using hdown p
    | setAside p copy => simpa [calls, Function.comp_def, Call.timed, Deed.toCall] using hdown p
    | keepBoth p copy =>
      cases hs : pass.scan.entries.get p with
      | none => simp [calls, keepCalls, hs, Call.timed, Deed.toCall]
      | some scanned =>
        simpa [calls, keepCalls, hs, Function.comp_def, Call.timed, Deed.toCall] using hdown p
    | _ => cases hf
  · rw [List.map_map]
    exact List.map_id _

/-! ## The two together -/

/-- What the walk has still to do: read a directory, or look at a name it read. -/
inductive Spot where
  | list (directory : Option RelPath)
  | name (path : RelPath)
  deriving DecidableEq

/-- Where a pass stands. The walk may have looked at a file it has not hashed; the loop is between
two deeds of an action, with the actions after it. -/
inductive Phase where
  | walking (looking : Option (RelPath × Nat × Option Int)) (left : List Spot)
  | applying (todo : List Deed) (rest : List Action)
  | ended

/-- A pass and its user. -/
structure Moment where
  world : World
  /-- The modification time a file shows. -/
  mtimeOf : RelPath → Option Int
  /-- The scan so far. -/
  found : OrdMap RelPath Scanned
  /-- The listing the plan was made from, and the plan. -/
  remote : Snapshot
  plan : List Action
  /-- What the user wrote, and did not write over. -/
  edits : List LocalEdit
  phase : Phase

/-- A pass that begins. -/
def Moment.start (w : World) (mtimeOf : RelPath → Option Int) : Moment :=
  ⟨w, mtimeOf, OrdMap.empty, OrdMap.empty, [], [], .walking none [.list none]⟩

namespace Moment

variable (s : Moment)

/-- `mtime_of`, of a file. -/
def mtimeAt (p : RelPath) : Option Int :=
  match s.world.disk.get p with
  | some (.file ..) => s.mtimeOf p
  | _ => none

/-- A content is on one of the sides, recorded, found or listed. -/
def Knows (x : Entry) : Prop :=
  ∃ p, s.world.disk.get p = some x ∨ s.world.server.tree.get p = some x ∨
    s.world.state.base.get p = some x ∨ (s.found.get p).map Scanned.entry = some x ∨
      s.remote.get p = some x

/-- A time is one a file shows, or one that was recorded, found or looked at. -/
def Dates (m : Int) : Prop :=
  (∃ p, s.mtimeAt p = some m ∨ (s.world.state.tracked.get p).bind Tracked.mtimeMs = some m ∨
    (s.found.get p).bind Scanned.mtimeMs = some m) ∨
  ∃ p n left, s.phase = .walking (some (p, n, some m)) left

/-- What an edit is: a file of the folder, or a new one in a directory of it, by a name the walk
reports, gets a content and a time no one has seen. -/
structure Admits (u : Unicode) (e : LocalEdit) : Prop where
  visible : Visible u e.path
  parent : ∀ d, e.path.parent = some d → s.world.disk.get d = some .directory
  file : s.world.disk.get e.path ≠ some .directory
  tag : ∀ n, ¬ s.Knows (.file e.tag n)
  mtime : ¬ s.Dates e.mtimeMs

/-- The folder after an edit; an edit of the same file before it is the user's own to replace. -/
def edited (e : LocalEdit) : Moment :=
  { s with
    world := { s.world with disk := s.world.disk.insert e.path e.content }
    mtimeOf := Function.update s.mtimeOf e.path (some e.mtimeMs)
    edits := e :: s.edits.filter fun o => decide (s.world.disk.get e.path ≠ some o.content) }

/-- The times after a call: a file keeps its own when it is renamed, and what a download wrote shows
one that is not an edit's. -/
def Retimes (mtimeOf : RelPath → Option Int) : Call → Prop
  | .fetch _ staged => (∀ p, p ≠ staged → mtimeOf p = s.mtimeOf p) ∧
      ∀ e ∈ s.edits, mtimeOf staged ≠ some e.mtimeMs
  | .rename _ source target => mtimeOf = Function.update s.mtimeOf target (s.mtimeOf source)
  | _ => mtimeOf = s.mtimeOf

/-- A deed that succeeds. -/
inductive Does (u : Unicode) : Deed → Moment → Moment → Prop
  | call {s : Moment} {c : Call} {w : World} {mtimeOf : RelPath → Option Int}
      (hok : perform u c s.world = .ok () w) (htimes : s.Retimes mtimeOf c) :
      Does u (.call c) s { s with world := w, mtimeOf := mtimeOf }
  | readBack {s : Moment} {p : RelPath} {entry : Entry} :
      Does u (.readBack p entry) s { s with world := { s.world with
        state := s.world.state.record p entry (s.mtimeAt p) } }

end Moment

/-- What happens next: a step of the walk, the plan, an action taken up, a deed, an action's
failure, the save, the end of a pass that fails, an edit. -/
inductive Event where
  | walk
  | plan
  | turn
  | deed (d : Deed)
  | fail
  | save
  | stop
  | edit (e : LocalEdit)

section Step

variable (u : Unicode) (rules : Rules)

/-- One step of the pass, or of its user. -/
inductive Moment.Step : Event → Moment → Moment → Prop
  /-- `fs::read_dir`: what stands in a directory, in any order, and maybe names made since. -/
  | listed {s : Moment} {d : Option RelPath} {left : List Spot} {names : List RelPath}
      (hphase : s.phase = .walking none (.list d :: left))
      (hall : ∀ p, p.parent = d → s.world.disk.get p ≠ none → p ∈ names)
      (hin : ∀ p ∈ names, p.parent = d) :
      Moment.Step .walk s { s with phase := .walking none (names.map .name ++ left) }
  | hidden {s : Moment} {p : RelPath} {left : List Spot}
      (hphase : s.phase = .walking none (.name p :: left))
      (hhidden : (isStateFile p.fileName || isIgnored u p.fileName) = true) :
      Moment.Step .walk s { s with phase := .walking none left }
  | entered {s : Moment} {p : RelPath} {left : List Spot}
      (hphase : s.phase = .walking none (.name p :: left))
      (hseen : (isStateFile p.fileName || isIgnored u p.fileName) = false)
      (hdir : s.world.disk.get p = some .directory) :
      Moment.Step .walk s { s with
        found := s.found.insert p ⟨.directory, none⟩
        phase := .walking none (.list (some p) :: left) }
  /-- `entry.metadata()` of a file. -/
  | looked {s : Moment} {p : RelPath} {left : List Spot} {tag : Str} {size : Nat}
      (hphase : s.phase = .walking none (.name p :: left))
      (hseen : (isStateFile p.fileName || isIgnored u p.fileName) = false)
      (hfile : s.world.disk.get p = some (.file tag size)) :
      Moment.Step .walk s { s with phase := .walking (some (p, size, s.mtimeOf p)) left }
  /-- `fingerprint`: the recorded entry, or the bytes as they are now. -/
  | hashed {s : Moment} {p : RelPath} {size : Nat} {m : Option Int} {left : List Spot} {tag : Str}
      {now : Nat} (hphase : s.phase = .walking (some (p, size, m)) left)
      (hfile : s.world.disk.get p = some (.file tag now)) :
      Moment.Step .walk s { s with
        found := s.found.insert p (fingerprint s.world.state p tag size m)
        phase := .walking none left }
  /-- The listing and the plan. -/
  | planned {s : Moment} {pass : Pass} (hphase : s.phase = .walking none [])
      (hscan : pass.scan.entries = s.found) (hrules : pass.rules = rules) :
      Moment.Step .plan s { s with
        world := { s.world with report := pass.report u s.world }
        remote := pass.remote u s.world
        plan := (pass.plan u s.world).actions
        phase := .applying [] (pass.plan u s.world).actions }
  | turned {s : Moment} {pass : Pass} {a : Action} {rest : List Action}
      (hphase : s.phase = .applying [] (a :: rest)) (hscan : pass.scan.entries = s.found) :
      Moment.Step .turn s { s with phase := .applying (deeds pass s.remote a) rest }
  | did {s s' : Moment} {d : Deed} {todo : List Deed} {rest : List Action}
      (hphase : s.phase = .applying (d :: todo) rest) (hdone : Moment.Does u d s s') :
      Moment.Step (.deed d) s { s' with phase := .applying todo rest }
  /-- An action that fails: the loop notes it and goes on. -/
  | failed {s : Moment} {todo : List Deed} {rest : List Action} {report : Report}
      (hphase : s.phase = .applying todo rest) :
      Moment.Step .fail s { s with
        world := { s.world with report := report }
        phase := .applying [] rest }
  /-- `record_agreed_directories` and `save`. -/
  | saved {s : Moment} {pass : Pass} {disk : Snapshot} (hphase : s.phase = .applying [] [])
      (hscan : pass.scan.entries = s.found) (hsave : SaveKeeps u rules s.world.disk disk) :
      Moment.Step .save s { s with
        world := { s.world with
          disk := disk
          state := recordAgreedDirectories pass s.remote s.world.state }
        phase := .ended }
  /-- The scan, the listing or the save fails, and the pass with it. -/
  | stopped {s : Moment} : Moment.Step .stop s { s with phase := .ended }
  | edited {s : Moment} {e : LocalEdit} (hadmits : s.Admits u e) :
      Moment.Step (.edit e) s (s.edited e)

end Step

/-! ## What is not lost, and the steps that lose nothing -/

namespace Moment

variable (s : Moment)

/-- The next scan reports the file at a path with an edit's content. -/
def Reports (p : RelPath) (e : LocalEdit) : Prop :=
  s.world.disk.get p = some e.content ∧
    fingerprint s.world.state p e.tag e.size (s.mtimeOf p) = ⟨e.content, s.mtimeOf p⟩

/-- The path of an edit, or the name a conflict of the plan gave a file. -/
def Stays (e : LocalEdit) (p : RelPath) : Prop := p = e.path ∨ ∃ a ∈ s.plan, a.copy = some p

/-- An edit is not lost: at its path or in a conflict's copy, the server has it or the next scan
will report it. -/
def Keeps (e : LocalEdit) : Prop :=
  ∃ p, s.Stays e p ∧ (s.world.server.tree.get p = some e.content ∨ s.Reports p e)

/-- The edits that stand at a path, and that the server does not have there. -/
def Unsent (p : RelPath) (e : LocalEdit) : Prop :=
  e ∈ s.edits ∧ s.world.disk.get p = some e.content ∧ s.world.server.tree.get p ≠ some e.content

end Moment

/-- A deed falls on no unsent edit that matters to it: what moves into place or deletes a file wants
those the scan did not report, what gives a conflict its name wants all, and what reads a time back
those of the recorded size. -/
def Deed.Spares (s : Moment) : Deed → Prop
  | .call (.rename (.renaming _) _ p) => ∀ e, ¬ s.Unsent p e
  | .call (.rename _ _ p) | .call (.removeFile p) =>
    ∀ e, s.Unsent p e → (s.found.get p).map Scanned.entry = some e.content
  | .readBack p entry => ∀ e, s.Unsent p e → ∀ tag, entry ≠ .file tag e.size
  | _ => True

/-- What happens next falls on no such edit; the save takes names of the root for itself. -/
def Event.Spares (u : Unicode) (rules : Rules) (s : Moment) : Event → Prop
  | .deed d => d.Spares s
  | .save => ∀ p e, s.Unsent p e → rules.takesFor u stagedStateName p = false
  | _ => True

section Runs

variable (u : Unicode) (rules : Rules)

/-- Whatever may happen next. -/
def Moment.Next (s s' : Moment) : Prop := ∃ event, Moment.Step u rules event s s'

/-- What may happen next, and falls on no edit. -/
def Moment.NextSparing (s s' : Moment) : Prop :=
  ∃ event, Moment.Step u rules event s s' ∧ event.Spares u rules s

end Runs

end Stashden.Sync
