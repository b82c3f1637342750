import Stashden.Core.Grant
import Stashden.Sync.Plan

/-!
# What a share holds back (`held.rs`)

`Held` knows the shelf `Shared with me` and the shares mounted on it, each with the access given.
`apply` takes the refused writes out of a plan and turns a conflict whose copy could not be uploaded
into `setAside`.

* `mem_apply_iff` says which actions remain: a conflict set aside, or an action of the plan that no
  share holds back.
* `apply_eq_of_held_nil`: a plan of which nothing is held back is left as it is.
* `holdsRemoval_above`: a removal held below a directory holds the directory's removal too, for the
  shelf and the mounts as the server reports them (`wellMounted_fromMounts`).
-/

namespace Stashden.Sync

open Lib Stashden.Core RelPath

/-- `Held`. -/
structure Held where
  shelf : Option RelPath
  mounts : List (RelPath × Access)

namespace Held

/-- `Held::from_mounts`. -/
def fromMounts (mounts : List (Str × Access)) : Held :=
  match parse sharedWithMe with
  | .error _ => ⟨none, []⟩
  | .ok shelf =>
    ⟨some shelf, mounts.filterMap fun e => (shelf.child e.1).toOption.map fun p => (p, e.2)⟩

variable (h : Held)

/-- `read_only`. -/
def readOnly (path : RelPath) : Bool :=
  h.mounts.any fun e => !e.2.mayWrite && (decide (path = e.1) || path.isInside e.1)

/-- `fixed`. -/
def fixed (path : RelPath) : Bool :=
  decide (h.shelf = some path) || h.mounts.any fun e => decide (e.1 = path)

/-- `loose_on_the_shelf`. -/
def looseOnTheShelf (path : RelPath) : Bool :=
  match h.shelf with
  | none => false
  | some top =>
    let underAMount := h.mounts.any fun e => decide (e.1 = path) || path.isInside e.1
    decide (path = top) || (path.isInside top && !underAMount)

/-- `refuses_upload`. -/
def refusesUpload (path : RelPath) : Bool := h.readOnly path || h.looseOnTheShelf path

/-- The guard of `holding`: whether an action is kept back. -/
def holds (uprooted : List RelPath) : Action → Bool
  | .upload path | .createRemoteDirectory path => h.refusesUpload path
  | .deleteRemote path | .removeRemoteDirectory path =>
    h.readOnly path || h.fixed path || uprooted.any fun root => path.isInside root
  | _ => false

/-- `holding`. -/
def holding (uprooted : List RelPath) (action : Action) : Option RelPath :=
  if h.holds uprooted action then some action.subject else none

/-- `uprooted`: the shelf and the shares whose removal the plan asks for. -/
def uprooted (actions : List Action) : List RelPath :=
  actions.filterMap fun action =>
    match action with
    | .removeRemoteDirectory path => if h.fixed path then some path else none
    | _ => none

/-- One turn of the loop of `Held::apply`: what remains of an action, and what is held back. -/
def sift (uprooted : List RelPath) (action : Action) : Option Action × Option RelPath :=
  match action with
  | .keepBoth path localCopy =>
    if h.refusesUpload localCopy then (some (.setAside path localCopy), some localCopy)
    else (some action, none)
  | _ =>
    match h.holding uprooted action with
    | some path => (none, some path)
    | none => (some action, none)

/-- `Held::apply`. -/
def apply (plan : Plan) : Plan :=
  let uprooted := h.uprooted plan.actions
  { actions := plan.actions.filterMap fun action => (h.sift uprooted action).1
    blocked := plan.blocked
    held := plan.held ++ plan.actions.filterMap fun action => (h.sift uprooted action).2 }

/-! ## What remains -/

variable {h} {roots : List RelPath}

/-- **What one turn leaves of an action.** -/
theorem sift_eq_some_iff {a b : Action} :
    (h.sift roots a).1 = some b ↔
      (∃ p c, a = .keepBoth p c ∧ h.refusesUpload c = true ∧ b = .setAside p c) ∨
        (b = a ∧ h.holds roots a = false ∧
          ∀ p c, a = .keepBoth p c → h.refusesUpload c = false) := by
  have hsome : ∀ c : Action, some c = some b ↔ b = c := fun c => by rw [Option.some.injEq, eq_comm]
  unfold sift
  cases a with
  | keepBoth p c => by_cases hr : h.refusesUpload c = true <;> simp [hr, holds, hsome]
  | _ =>
    simp only [holding]
    split_ifs with hh <;> simp [hh, hsome]

/-- What remains of a plan, other than a conflict set aside, is an action of the plan. -/
theorem mem_apply_iff {plan : Plan} {b : Action} :
    b ∈ (h.apply plan).actions ↔
      (∃ p c, .keepBoth p c ∈ plan.actions ∧ h.refusesUpload c = true ∧ b = .setAside p c) ∨
        (b ∈ plan.actions ∧ h.holds (h.uprooted plan.actions) b = false ∧
          ∀ p c, b = .keepBoth p c → h.refusesUpload c = false) := by
  unfold apply
  simp only [List.mem_filterMap, sift_eq_some_iff]
  constructor
  · rintro ⟨a, ha, ⟨p, c, rfl, hr, rfl⟩ | ⟨rfl, hh⟩⟩
    · exact Or.inl ⟨p, c, ha, hr, rfl⟩
    · exact Or.inr ⟨ha, hh⟩
  · rintro (⟨p, c, ha, hr, rfl⟩ | ⟨ha, hh⟩)
    · exact ⟨_, ha, Or.inl ⟨p, c, rfl, hr, rfl⟩⟩
    · exact ⟨b, ha, Or.inr ⟨rfl, hh⟩⟩

/-- Where nothing is held back, the action itself remains. -/
theorem sift_of_held_none {a : Action} (ha : (h.sift roots a).2 = none) :
    (h.sift roots a).1 = some a := by
  unfold sift at ha ⊢
  cases a with
  | keepBoth p c =>
    simp only at ha ⊢
    split_ifs at ha ⊢
    rfl
  | _ =>
    simp only [holding] at ha ⊢
    split_ifs at ha ⊢
    rfl

/-- What a share holds back is reported. -/
theorem mem_held_of_holds {plan : Plan} {a : Action} (ha : a ∈ plan.actions)
    (hh : h.holds (h.uprooted plan.actions) a = true) : a.subject ∈ (h.apply plan).held := by
  refine List.mem_append_right _ (List.mem_filterMap.mpr ⟨a, ha, ?_⟩)
  cases a with
  | keepBoth p c => exact absurd hh (by simp [holds])
  | _ => simp [sift, holding, hh]

/-- **A plan of which nothing is held back is left as it is.** -/
theorem apply_eq_of_held_nil {plan : Plan} (hh : (h.apply plan).held = []) :
    (h.apply plan).actions = plan.actions := by
  obtain ⟨-, hnil⟩ := List.append_eq_nil_iff.mp hh
  have hall := List.filterMap_eq_nil_iff.mp hnil
  show plan.actions.filterMap _ = plan.actions
  rw [List.filterMap_congr (g := some) fun a ha => sift_of_held_none (hall a ha)]
  exact List.filterMap_some

/-- The shares of an account that received none. -/
def nothing : Held := ⟨none, []⟩

/-- No share holds anything back. -/
theorem apply_nothing (plan : Plan) : (nothing.apply plan).actions = plan.actions := by
  have hroots : nothing.uprooted plan.actions = [] := by
    refine List.filterMap_eq_nil_iff.mpr fun a _ => ?_
    cases a <;> simp [nothing, fixed]
  unfold apply
  rw [hroots]
  show plan.actions.filterMap _ = plan.actions
  rw [List.filterMap_congr (g := some) fun a _ => sift_of_held_none ?_]
  · exact List.filterMap_some
  · cases a <;> simp [sift, holding, holds, nothing, readOnly, fixed, looseOnTheShelf, refusesUpload]

/-- What one turn leaves has the subject and the list of the action. -/
theorem sift_subject {a b : Action} (hb : (h.sift roots a).1 = some b) :
    b.subject = a.subject ∧ b.slot = a.slot := by
  rcases sift_eq_some_iff.mp hb with ⟨p, c, rfl, -, rfl⟩ | ⟨rfl, -⟩
  · exact ⟨rfl, rfl⟩
  · exact ⟨rfl, rfl⟩

/-- Holding back keeps the order. -/
theorem apply_pairwise {plan : Plan} (hp : plan.actions.Pairwise Action.Precedes) :
    (h.apply plan).actions.Pairwise Action.Precedes := by
  refine List.Pairwise.filterMap _ ?_ hp
  intro a a' haa b hb b' hb'
  obtain ⟨hs, hl⟩ := sift_subject hb
  obtain ⟨hs', hl'⟩ := sift_subject hb'
  unfold Action.Precedes at haa ⊢
  rwa [hs, hs', hl, hl']

/-! ## Removals are held from the top -/

/-- The shape of what the server reports: the shares are mounted directly on the shelf, which is a
top-level folder. -/
def WellMounted (h : Held) : Prop :=
  (∀ top, h.shelf = some top → top.parent = none) ∧
    ∀ m ∈ h.mounts, ∃ top, h.shelf = some top ∧ m.1.parent = some top

theorem wellMounted_fromMounts (mounts : List (NodeName × Access)) :
    (fromMounts (mounts.map fun e => (e.1.str, e.2))).WellMounted := by
  unfold fromMounts
  have hvalid : ValidPath sharedWithMe := by decide
  have hslash : '/' ∉ sharedWithMe := by decide
  rw [parse_of_valid hvalid]
  refine ⟨fun top htop => ?_, fun m hm => ?_⟩
  · cases htop
    exact parent_eq_none_iff.mpr hslash
  · simp only [List.mem_filterMap, List.mem_map] at hm
    obtain ⟨_, ⟨⟨name, access⟩, -, rfl⟩, hmount⟩ := hm
    have hv : ValidPath (sharedWithMe ++ '/' :: name.str) :=
      validPath_append.mpr ⟨hvalid, validPath_of_name name.valid⟩
    simp only [child, parse_of_valid hv, Except.toOption, Option.map_some, Option.some.injEq] at hmount
    subst hmount
    exact ⟨_, rfl, parent_eq_some_iff.mpr ⟨name.str, NodeName.slash_not_mem name.valid, rfl⟩⟩

theorem WellMounted.eq_shelf_of_above (hw : h.WellMounted) {m d : RelPath}
    (hm : ∃ e ∈ h.mounts, e.1 = m) (hd : m.isInside d = true) : h.shelf = some d := by
  obtain ⟨e, he, rfl⟩ := hm
  obtain ⟨top, htop, hpar⟩ := hw.2 e he
  obtain ⟨q, hq, hqd⟩ := isInside_iff_parent.mp hd
  obtain rfl := Option.some.inj (hpar.symm.trans hq)
  rcases hqd with rfl | hin
  · exact htop
  · obtain ⟨q', hq', -⟩ := isInside_iff_parent.mp hin
    rw [hw.1 top htop] at hq'
    exact absurd hq' (by simp)

theorem fixed_iff {p : RelPath} : h.fixed p = true ↔ h.shelf = some p ∨ ∃ e ∈ h.mounts, e.1 = p := by
  simp [fixed]

/-- The guard of a removal. -/
def holdsRemoval (h : Held) (roots : List RelPath) (p : RelPath) : Bool :=
  h.readOnly p || h.fixed p || roots.any fun root => p.isInside root

/-- **A removal held below a directory holds the directory's removal too.** -/
theorem holdsRemoval_above (hw : h.WellMounted) (hroots : ∀ r ∈ roots, h.fixed r = true)
    {p d : RelPath} (hin : p.isInside d = true) (hp : h.holdsRemoval roots p = true) :
    h.holdsRemoval roots d = true := by
  -- Above a mount there is only the shelf, and above the shelf nothing.
  have hfix : ∀ r, h.fixed r = true → r.isInside d = true → h.fixed d = true := by
    intro r hr hrd
    refine fixed_iff.mpr (Or.inl ?_)
    rcases fixed_iff.mp hr with hs | hm
    · obtain ⟨q, hq, -⟩ := isInside_iff_parent.mp hrd
      rw [hw.1 r hs] at hq
      exact absurd hq (by simp)
    · exact hw.eq_shelf_of_above hm hrd
  unfold holdsRemoval at hp ⊢
  simp only [Bool.or_eq_true, List.any_eq_true] at hp ⊢
  rcases hp with (hp | hp) | ⟨r, hr, hpr⟩
  · simp only [readOnly, List.any_eq_true, Bool.and_eq_true, Bool.or_eq_true, decide_eq_true_eq,
      Bool.not_eq_true'] at hp
    obtain ⟨m, hm, haccess, hpm⟩ := hp
    have hmfix : h.fixed m.1 = true := fixed_iff.mpr (Or.inr ⟨m, hm, rfl⟩)
    have hro : (d = m.1 ∨ d.isInside m.1 = true) → h.readOnly d = true := fun hd => by
      simp only [readOnly, List.any_eq_true, Bool.and_eq_true, Bool.or_eq_true, decide_eq_true_eq,
        Bool.not_eq_true']
      exact ⟨m, hm, haccess, hd⟩
    rcases hpm with rfl | hpm
    · exact Or.inl (Or.inr (hfix _ hmfix hin))
    · rcases isInside_linear hin hpm with rfl | hd | hd
      · exact Or.inl (Or.inl (hro (Or.inl rfl)))
      · exact Or.inl (Or.inl (hro (Or.inr hd)))
      · exact Or.inl (Or.inr (hfix _ hmfix hd))
  · exact Or.inl (Or.inr (hfix p hp hin))
  · rcases isInside_linear hin hpr with rfl | hd | hd
    · exact Or.inl (Or.inr (hroots _ hr))
    · exact Or.inr ⟨r, hr, hd⟩
    · exact Or.inl (Or.inr (hfix r (hroots r hr) hd))

theorem fixed_of_mem_uprooted {actions : List Action} {r : RelPath}
    (hr : r ∈ h.uprooted actions) : h.fixed r = true := by
  unfold uprooted at hr
  obtain ⟨a, -, ha⟩ := List.mem_filterMap.mp hr
  split at ha
  · split_ifs at ha with hf
    exact Option.some.inj ha ▸ hf
  · exact absurd ha (by simp)

end Held

end Stashden.Sync
