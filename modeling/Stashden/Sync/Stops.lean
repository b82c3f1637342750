import Stashden.Sync.Calls

/-!
# Where a pass stops (`engine.rs:152-163`)

The network fails, the disk is full, the process dies: an action stops after some of its calls, and a
pass after some of its actions. A `Turn` is an action with the calls it came to make, `Turns` the loop
over them, `Attempt` a pass from its plan on, ended or died. A pass that died leaves the record it
started from: `save` is its last step.

`save` stages the record next to its file, under a name of its own (`Staged`); whatever the folder
had there is the only other thing it may change.

* `attempt_syncOnce`: `sync_once` is such a pass.
* `Turns.invariant`, `Turns.split`: the rules of the loop.
-/

namespace Stashden.Sync

open Lib Stashden.Core RelPath EngineM

/-! ## The loop -/

section Loop

variable (u : Unicode) (pass : Pass) (remote : Snapshot)

/-- One turn of the loop: an action, and those of its calls it came to make. -/
structure Turn where
  action : Action
  performed : List Call

/-- The action was carried out to the end. -/
def Turn.Whole (t : Turn) : Prop := t.performed = calls pass remote t.action

/-- The loop: turn after turn, each stopping after some of its action's calls, the report noting
what it will. -/
inductive Turns : List Turn → World → World → Prop
  | nil (w : World) : Turns [] w w
  | cons {t : Turn} {turns : List Turn} {rest : List Call} {w w₁ w' : World}
      (hcalls : calls pass remote t.action = t.performed ++ rest)
      (hdone : Performs u t.performed w w₁) (report : Report)
      (hrest : Turns turns { w₁ with report := report } w') : Turns (t :: turns) w w'

end Loop

section Loop

variable {u : Unicode} {pass : Pass} {remote : Snapshot} {w w' : World}

/-- The turns of a list of actions in the loop of `sync_once`: those that fail stop before the call
that does. -/
def turnsOf (u : Unicode) (pass : Pass) (remote : Snapshot) : List Action → World → List Turn
  | [], _ => []
  | a :: acts, w =>
    ⟨a, succeeding u (calls pass remote a) w⟩ ::
      turnsOf u pass remote acts (runAction u pass remote a w)

/-- **The loop of `sync_once` is such a loop.** -/
theorem turns_runActions (acts : List Action) :
    Turns u pass remote (turnsOf u pass remote acts w) w (runActions u pass remote acts w) := by
  induction acts generalizing w with
  | nil => exact .nil w
  | cons a acts ih =>
    obtain ⟨rest, hcalls, hdone⟩ := after_performAll (u := u) (w := w) (calls pass remote a)
    rw [← apply_eq] at hdone
    have hrun : runAction u pass remote a w =
        { World.after (apply u pass remote a w) with
          report := (runAction u pass remote a w).report } := by
      unfold runAction
      cases apply u pass remote a w <;> rfl
    refine .cons hcalls hdone (runAction u pass remote a w).report ?_
    rw [← hrun]
    exact ih

theorem turnsOf_action (acts : List Action) :
    (turnsOf u pass remote acts w).map Turn.action = acts := by
  induction acts generalizing w with
  | nil => rfl
  | cons a acts ih => rw [turnsOf, List.map_cons, ih]

theorem performed_starts {acts : List Action} {t : Turn} (h : t ∈ turnsOf u pass remote acts w) :
    t.performed <+: calls pass remote t.action := by
  induction acts generalizing w with
  | nil => exact absurd h List.not_mem_nil
  | cons a acts ih =>
    rcases List.mem_cons.mp h with rfl | h
    · obtain ⟨rest, hcalls, -⟩ := after_performAll (u := u) (w := w) (calls pass remote a)
      exact ⟨rest, hcalls.symm⟩
    · exact ih h

/-- **The invariant rule of the loop**: what every turn keeps. -/
theorem Turns.invariant {J : World → Prop} {turns : List Turn} (h : Turns u pass remote turns w w')
    (hreport : ∀ w report, J w → J { w with report := report })
    (hturn : ∀ t ∈ turns, ∀ w w', Performs u t.performed w w' →
      (∃ rest, calls pass remote t.action = t.performed ++ rest) → J w → J w')
    (hw : J w) : J w' := by
  induction h with
  | nil => exact hw
  | cons hcalls hdone report _ ih =>
    refine ih (fun t ht => hturn t (List.mem_cons_of_mem _ ht)) (hreport _ report ?_)
    exact hturn _ List.mem_cons_self _ _ hdone ⟨_, hcalls⟩ hw

/-- The loop over turns that are two lists, one after the other. -/
theorem Turns.split {xs ys : List Turn} (h : Turns u pass remote (xs ++ ys) w w') :
    ∃ w₁, Turns u pass remote xs w w₁ ∧ Turns u pass remote ys w₁ w' := by
  induction xs generalizing w with
  | nil => exact ⟨w, .nil w, h⟩
  | cons t xs ih =>
    obtain _ | ⟨hcalls, hdone, report, hrest⟩ := h
    obtain ⟨w₁, hxs, hys⟩ := ih hrest
    exact ⟨w₁, .cons hcalls hdone report hxs, hys⟩

end Loop

/-! ## The end of a pass -/

/-- The name `save` stages the record under: `path.with_extension("tmp")`. -/
def stagedStateName : Str := ".stashden-sync.tmp".toList

/-- The folder takes the path for a name of its own root. -/
def Rules.takesFor (u : Unicode) (rules : Rules) (name : Str) (p : RelPath) : Bool :=
  p.parent = none &&
    (p.str == name || (rules.foldsCase && folded u p == u.lower (u.nfc name)))

/-- What `save` leaves of the folder, however far it comes: all but the name it stages under. -/
def SaveKeeps (u : Unicode) (rules : Rules) (disk disk' : Snapshot) : Prop :=
  ∀ p, rules.takesFor u stagedStateName p = false → disk'.get p = disk.get p

/-- A pass from its plan on, turn by turn: it comes to its end and keeps the record it made, or dies
and leaves the one it started from. -/
inductive Attempt (u : Unicode) (pass : Pass) (w : World) (turns : List Turn) : World → Prop
  | ended {w₁ : World} {disk : Snapshot}
      (hplan : turns.map Turn.action = (pass.plan u w).actions)
      (hturns : Turns u pass (pass.remote u w) turns { w with report := pass.report u w } w₁)
      (hsave : SaveKeeps u pass.rules w₁.disk disk) :
      Attempt u pass w turns { w₁ with
        disk := disk
        state := recordAgreedDirectories pass (pass.remote u w) w₁.state }
  | died {w₁ : World} {disk : Snapshot}
      (hplan : turns.map Turn.action <+: (pass.plan u w).actions)
      (hturns : Turns u pass (pass.remote u w) turns { w with report := pass.report u w } w₁)
      (hsave : SaveKeeps u pass.rules w₁.disk disk) :
      Attempt u pass w turns { w₁ with disk := disk, state := w.state }

/-- What an attempt comes to: some turns of its plan, a save, and one of the two records. -/
theorem Attempt.spec {u : Unicode} {pass : Pass} {w w' : World} {turns : List Turn}
    (h : Attempt u pass w turns w') : ∃ w₁, turns.map Turn.action <+: (pass.plan u w).actions ∧
      Turns u pass (pass.remote u w) turns { w with report := pass.report u w } w₁ ∧
      SaveKeeps u pass.rules w₁.disk w'.disk ∧ w'.server = w₁.server ∧
      (w'.state = recordAgreedDirectories pass (pass.remote u w) w₁.state ∨ w'.state = w.state) := by
  cases h with
  | ended hplan hturns hsave =>
    exact ⟨_, hplan ▸ List.prefix_refl _, hturns, hsave, rfl, Or.inl rfl⟩
  | died hplan hturns hsave => exact ⟨_, hplan, hturns, hsave, rfl, Or.inr rfl⟩

/-- The turns of a pass of the model. -/
def Pass.turns (u : Unicode) (pass : Pass) (w : World) : List Turn :=
  turnsOf u pass (pass.remote u w) (pass.plan u w).actions { w with report := pass.report u w }

/-- **A pass of the model is an attempt**, up to what `save` does to its own names. -/
theorem attempt_syncOnce (u : Unicode) (pass : Pass) (w : World) :
    Attempt u pass w (pass.turns u w) (syncOnce u pass w) :=
  .ended (turnsOf_action _) (turns_runActions _) fun _ _ => rfl

/-- A pass of the model that died before it saved. -/
theorem attempt_died (u : Unicode) (pass : Pass) (w : World) :
    Attempt u pass w (pass.turns u w) { pass.ran u w with state := w.state } :=
  .died (turnsOf_action _ ▸ List.prefix_refl _)
    (turns_runActions _ : Turns u pass (pass.remote u w) _ _ (pass.ran u w)) fun _ _ => rfl

end Stashden.Sync
