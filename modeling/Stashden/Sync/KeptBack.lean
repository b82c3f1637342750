import Stashden.Sync.Held

/-!
# Exactly what is refused is kept back (`held.rs`)

`KeepsBack` says of a plan and what `apply` leaves of it that no refused write remains, that what is
taken out is listed, and that everything else stays in its order. A write is refused at or below a
share that may only be read, an upload also on the shelf and loose below it, a removal also of the
shelf or a share and of what is inside one that was to go.

`holds_iff` says this of the guard, `apply_actions` that what stays is a part of the plan in its
order, `shelved_fromMounts` that whatever names the server reports the shares are at or below the
shelf.
-/

namespace Stashden.Sync

open Lib Stashden.Core RelPath

/-- What an action would put on the server. -/
def Action.puts : Action → Option RelPath
  | .upload p | .createRemoteDirectory p => some p
  | .keepBoth _ c => some c
  | _ => none

/-- What it would remove from the server. -/
def Action.unlinks : Action → Option RelPath
  | .deleteRemote p | .removeRemoteDirectory p => some p
  | _ => none

/-- The paths it names. -/
def Action.paths : Action → List RelPath
  | .keepBoth p c | .setAside p c => [p, c]
  | a => [a.subject]

/-- Whether the server has no part in it, or only gives. -/
def Action.isLocal : Action → Bool
  | .download _ | .deleteLocal _ | .removeLocalDirectory _ | .createLocalDirectory _
  | .forget _ => true
  | _ => false

namespace Held

variable (h : Held)

/-- At or below a share that may only be read. -/
def ReadOnlyAt (p : RelPath) : Prop :=
  ∃ m ∈ h.mounts, m.2.mayWrite = false ∧ (p = m.1 ∨ p.isInside m.1 = true)

/-- On the shelf, or below it outside every share. -/
def LooseAt (p : RelPath) : Prop :=
  ∃ top, h.shelf = some top ∧
    (p = top ∨ p.isInside top = true ∧ ¬ ∃ m ∈ h.mounts, p = m.1 ∨ p.isInside m.1 = true)

/-- The shelf, or a share. -/
def FixedAt (p : RelPath) : Prop := h.shelf = some p ∨ ∃ m ∈ h.mounts, m.1 = p

/-- What `apply` leaves of an action that stays. -/
def settled : Action → Action
  | .keepBoth p c => if h.refusesUpload c then .setAside p c else .keepBoth p c
  | a => a

/-- `after` is `plan` with exactly the refused writes kept back. -/
structure KeepsBack (plan after : Plan) : Prop where
  /-- Nothing is put or removed at or below a share that may only be read. -/
  readOnly : ∀ a ∈ after.actions, ∀ p, a.puts = some p ∨ a.unlinks = some p → ¬ h.ReadOnlyAt p
  /-- Nothing is put on the shelf, or loose below it. -/
  loose : ∀ a ∈ after.actions, ∀ p, a.puts = some p → ¬ h.LooseAt p
  /-- Neither the shelf nor a share is removed. -/
  fixed : ∀ a ∈ after.actions, ∀ p, a.unlinks = some p → ¬ h.FixedAt p
  /-- What is taken out is listed. -/
  listed : ∀ a ∈ plan.actions, a ∉ after.actions →
    a.subject ∈ after.held ∨ ∃ p c, a = .keepBoth p c ∧ c ∈ after.held
  /-- A conflict is set aside exactly where its copy is refused. -/
  conflicts : ∀ p c, .keepBoth p c ∈ plan.actions →
    (.keepBoth p c ∈ after.actions ↔ ¬ (h.ReadOnlyAt c ∨ h.LooseAt c)) ∧
      (h.ReadOnlyAt c ∨ h.LooseAt c → .setAside p c ∈ after.actions)
  setAside : ∀ p c, .setAside p c ∈ after.actions → .setAside p c ∈ plan.actions ∨
    .keepBoth p c ∈ plan.actions ∧ (h.ReadOnlyAt c ∨ h.LooseAt c)
  /-- What writes nothing on the server stays. -/
  unwritten : ∀ a ∈ plan.actions, a.isLocal = true → a ∈ after.actions
  /-- What is outside the shelf stays. -/
  outside : ∀ a ∈ plan.actions, (∀ top, h.shelf = some top →
    ∀ q ∈ a.paths, q ≠ top ∧ q.isInside top = false) → a ∈ after.actions
  /-- An upload that is not refused stays. -/
  allowed : ∀ a ∈ plan.actions, ∀ p, a.puts = some p →
    ¬ h.ReadOnlyAt p → ¬ h.LooseAt p → a ∈ after.actions
  /-- So does a removal, unless a share or the shelf around it was to go. -/
  removable : ∀ a ∈ plan.actions, ∀ p, a.unlinks = some p → ¬ h.ReadOnlyAt p → ¬ h.FixedAt p →
    (∀ d, .removeRemoteDirectory d ∈ plan.actions → h.FixedAt d → p.isInside d = false) →
      a ∈ after.actions
  /-- What stays keeps its order. -/
  order : ∃ kept : List Action, kept.Sublist plan.actions ∧ after.actions = kept.map h.settled

variable {h} {plan : Plan} {a : Action} {p : RelPath}

theorem readOnly_iff : h.readOnly p = true ↔ h.ReadOnlyAt p := by
  simp [readOnly, ReadOnlyAt]

theorem looseOnTheShelf_iff : h.looseOnTheShelf p = true ↔ h.LooseAt p := by
  unfold looseOnTheShelf LooseAt
  cases h.shelf with
  | none => simp
  | some top =>
    simp only [Option.some.injEq, exists_eq_left', Bool.or_eq_true, decide_eq_true_eq,
      Bool.and_eq_true, Bool.not_eq_true']
    refine or_congr_right (and_congr_right fun _ => ?_)
    rw [← Bool.not_eq_true, List.any_eq_true]
    refine not_congr (exists_congr fun m => and_congr_right fun _ => ?_)
    rw [Bool.or_eq_true, decide_eq_true_eq, eq_comm]

theorem refusesUpload_iff : h.refusesUpload p = true ↔ h.ReadOnlyAt p ∨ h.LooseAt p := by
  unfold refusesUpload
  rw [Bool.or_eq_true, readOnly_iff, looseOnTheShelf_iff]

theorem fixedAt_iff : h.fixed p = true ↔ h.FixedAt p := fixed_iff

theorem mem_uprooted {actions : List Action} : p ∈ h.uprooted actions ↔
    .removeRemoteDirectory p ∈ actions ∧ h.FixedAt p := by
  unfold uprooted
  rw [List.mem_filterMap]
  constructor
  · rintro ⟨a, ha, hp⟩
    split at hp
    · split_ifs at hp with hf
      rw [← Option.some.inj hp]
      exact ⟨ha, fixedAt_iff.mp hf⟩
    · cases hp
  · rintro ⟨ha, hf⟩
    exact ⟨_, ha, if_pos (fixedAt_iff.mpr hf)⟩

/-- The guard, by what an action would do on the server. -/
theorem holds_iff {actions : List Action} : h.holds (h.uprooted actions) a = true ↔
    (∃ p, a.puts = some p ∧ (∀ q c, a ≠ .keepBoth q c) ∧ (h.ReadOnlyAt p ∨ h.LooseAt p)) ∨
      ∃ p, a.unlinks = some p ∧ (h.ReadOnlyAt p ∨ h.FixedAt p ∨
        ∃ d, .removeRemoteDirectory d ∈ actions ∧ h.FixedAt d ∧ p.isInside d = true) := by
  have hremoval : ∀ p, (h.readOnly p || h.fixed p ||
      (h.uprooted actions).any fun root => p.isInside root) = true ↔
        h.ReadOnlyAt p ∨ h.FixedAt p ∨
          ∃ d, .removeRemoteDirectory d ∈ actions ∧ h.FixedAt d ∧ p.isInside d = true := by
    intro p
    rw [Bool.or_eq_true, Bool.or_eq_true, readOnly_iff, fixedAt_iff, List.any_eq_true, or_assoc]
    refine or_congr_right (or_congr_right (exists_congr fun d => ?_))
    rw [mem_uprooted, and_assoc]
  cases a <;>
    simp [holds, Action.puts, Action.unlinks, refusesUpload_iff, hremoval, -Bool.or_eq_true]

/-- An action stays where nothing holds it back. -/
theorem mem_apply_of_not_holds (ha : a ∈ plan.actions)
    (hh : h.holds (h.uprooted plan.actions) a = false)
    (hboth : ∀ p c, a = .keepBoth p c → h.refusesUpload c = false) :
    a ∈ (h.apply plan).actions := mem_apply_iff.mpr (Or.inr ⟨ha, hh, hboth⟩)

/-- The shares are on the shelf. -/
def Shelved (h : Held) : Prop :=
  ∀ m ∈ h.mounts, ∃ top, h.shelf = some top ∧ (m.1 = top ∨ m.1.isInside top = true)

theorem shelved_fromMounts (mounts : List (Str × Access)) : (fromMounts mounts).Shelved := by
  unfold fromMounts
  have hvalid : ValidPath sharedWithMe := by decide
  have hslash : '/' ∉ sharedWithMe := by decide
  have hcheck : NodeName.check sharedWithMe = none := by decide
  rw [parse_of_valid hvalid]
  intro m hm
  obtain ⟨⟨name, access⟩, -, hmount⟩ := List.mem_filterMap.mp hm
  obtain ⟨p, hp, rfl⟩ := Option.map_eq_some_iff.mp hmount
  refine ⟨_, rfl, ?_⟩
  unfold child parse parsePath at hp
  rw [splitOn_append_slash, splitOn_of_not_mem hslash, List.singleton_append,
    List.filter_cons_of_pos (by decide), List.mapM_cons, NodeName.fromStr_of_valid hcheck] at hp
  cases hrest : List.mapM NodeName.fromStr
      ((name.splitOn '/').filter fun segment => decide (segment ≠ [])) with
  | error e =>
    rw [hrest] at hp
    cases hp
  | ok names =>
    rw [hrest] at hp
    have heq := Option.some.inj hp
    rw [← heq]
    cases names with
    | nil => exact Or.inl (str_injective (by simp))
    | cons n names => exact Or.inr (isInside_iff.mpr ⟨['/'].intercalate ((n :: names).map
        NodeName.str), by simp [List.intercalate_cons_cons]⟩)

theorem Shelved.fixedAt (hs : h.Shelved) (hp : h.FixedAt p) :
    ∃ top, h.shelf = some top ∧ (p = top ∨ p.isInside top = true) := by
  rcases hp with hp | ⟨m, hm, rfl⟩
  · exact ⟨p, hp, Or.inl rfl⟩
  · exact hs m hm

theorem Shelved.readOnlyAt (hs : h.Shelved) (hp : h.ReadOnlyAt p) :
    ∃ top, h.shelf = some top ∧ (p = top ∨ p.isInside top = true) := by
  obtain ⟨m, hm, -, hat⟩ := hp
  obtain ⟨top, htop, hup⟩ := hs m hm
  refine ⟨top, htop, ?_⟩
  rcases hat with rfl | hin
  · exact hup
  · rcases hup with heq | hup
    · exact Or.inr (heq ▸ hin)
    · exact Or.inr (isInside_trans hin hup)

/-- What is refused is at or below the shelf. -/
theorem Shelved.refused (hs : h.Shelved) (hp : h.ReadOnlyAt p ∨ h.LooseAt p) :
    ∃ top, h.shelf = some top ∧ (p = top ∨ p.isInside top = true) := by
  rcases hp with hp | ⟨top, htop, hp⟩
  · exact hs.readOnlyAt hp
  · exact ⟨top, htop, hp.imp_right And.left⟩

theorem apply_actions : (h.apply plan).actions =
    (plan.actions.filter fun a => !h.holds (h.uprooted plan.actions) a).map h.settled := by
  unfold apply
  show plan.actions.filterMap _ = _
  rw [← List.filterMap_eq_map, List.filterMap_filter]
  refine List.filterMap_congr fun a _ => ?_
  unfold sift
  by_cases hh : h.holds (h.uprooted plan.actions) a = true
  · rw [if_neg (by rw [hh]; decide)]
    cases a with
    | keepBoth p c => cases hh
    | _ => simp only [holding, if_pos hh]
  · rw [if_pos (by simpa using hh), Function.comp_apply]
    cases a with
    | keepBoth p c => by_cases hr : h.refusesUpload c = true <;> simp [settled, hr]
    | _ => simp only [holding, if_neg hh, settled]

/-- What remains is refused nowhere it is put. -/
theorem not_refused_of_mem_apply (ha : a ∈ (h.apply plan).actions) (hp : a.puts = some p) :
    ¬ (h.ReadOnlyAt p ∨ h.LooseAt p) := by
  intro hr
  rcases mem_apply_iff.mp ha with ⟨q, c, -, -, rfl⟩ | ⟨-, hh, hboth⟩
  · cases hp
  · by_cases hk : ∃ q c, a = .keepBoth q c
    · obtain ⟨q, c, rfl⟩ := hk
      cases hp
      have hno := hboth q _ rfl
      rw [refusesUpload_iff.mpr hr] at hno
      cases hno
    · rw [holds_iff.mpr (Or.inl ⟨p, hp, fun q c he => hk ⟨q, c, he⟩, hr⟩)] at hh
      cases hh

/-- What remains removes neither from a share that may only be read nor a share itself. -/
theorem not_held_of_mem_apply (ha : a ∈ (h.apply plan).actions) (hp : a.unlinks = some p) :
    ¬ h.ReadOnlyAt p ∧ ¬ h.FixedAt p := by
  rcases mem_apply_iff.mp ha with ⟨q, c, -, -, rfl⟩ | ⟨-, hh, -⟩
  · cases hp
  · refine ⟨fun hr => ?_, fun hf => ?_⟩
    · rw [holds_iff.mpr (Or.inr ⟨p, hp, Or.inl hr⟩)] at hh
      cases hh
    · rw [holds_iff.mpr (Or.inr ⟨p, hp, Or.inr (Or.inl hf)⟩)] at hh
      cases hh

/-- What is held back is at or below the shelf. -/
theorem Shelved.of_holds (hs : h.Shelved) (hh : h.holds (h.uprooted plan.actions) a = true) :
    ∃ top, h.shelf = some top ∧ (a.subject = top ∨ a.subject.isInside top = true) := by
  rcases holds_iff.mp hh with ⟨p, hp, hno, hr⟩ | ⟨p, hp, hheld⟩
  · have hsub : a.subject = p := by
      cases a <;> simp_all [Action.puts, Action.subject]
    exact hsub ▸ hs.refused hr
  · have hsub : a.subject = p := by
      cases a <;> simp_all [Action.unlinks, Action.subject]
    rw [hsub]
    rcases hheld with hr | hf | ⟨d, -, hd, hin⟩
    · exact hs.readOnlyAt hr
    · exact hs.fixedAt hf
    · obtain ⟨top, htop, hup⟩ := hs.fixedAt hd
      refine ⟨top, htop, Or.inr ?_⟩
      rcases hup with rfl | hup
      · exact hin
      · exact isInside_trans hin hup

theorem holds_keepBoth (roots : List RelPath) (p c : RelPath) :
    h.holds roots (.keepBoth p c) = false := rfl

/-- The copy of a conflict that is set aside is listed. -/
theorem mem_held_of_refused {p c : RelPath} (ha : .keepBoth p c ∈ plan.actions)
    (hr : h.refusesUpload c = true) : c ∈ (h.apply plan).held := by
  refine List.mem_append_right _ (List.mem_filterMap.mpr ⟨_, ha, ?_⟩)
  show (if h.refusesUpload c = true then (some (Action.setAside p c), some c)
    else (some (Action.keepBoth p c), none)).2 = some c
  rw [if_pos hr]

/-- **Exactly the refused writes are kept back**, whatever the plan and the shares. -/
theorem apply_keepsBack (mounts : List (Str × Access)) (plan : Plan) :
    (fromMounts mounts).KeepsBack plan ((fromMounts mounts).apply plan) where
  readOnly a ha p hp hr := by
    rcases hp with hp | hp
    · exact not_refused_of_mem_apply ha hp (Or.inl hr)
    · exact (not_held_of_mem_apply ha hp).1 hr
  loose a ha p hp hr := not_refused_of_mem_apply ha hp (Or.inr hr)
  fixed a ha p hp := (not_held_of_mem_apply ha hp).2
  listed a ha hno := by
    cases hh : (fromMounts mounts).holds ((fromMounts mounts).uprooted plan.actions) a with
    | true => exact Or.inl (mem_held_of_holds ha hh)
    | false =>
      by_cases hk : ∃ p c, a = .keepBoth p c ∧ (fromMounts mounts).refusesUpload c = true
      · obtain ⟨p, c, rfl, hr⟩ := hk
        exact Or.inr ⟨p, c, rfl, mem_held_of_refused ha hr⟩
      · refine absurd (mem_apply_of_not_holds ha hh fun p c he => ?_) hno
        by_contra hr
        exact hk ⟨p, c, he, by simpa using hr⟩
  conflicts p c hmem := by
    rw [← refusesUpload_iff]
    refine ⟨⟨fun ha hr => ?_, fun hr => ?_⟩, fun hr => ?_⟩
    · exact not_refused_of_mem_apply ha rfl (refusesUpload_iff.mp hr)
    · refine mem_apply_of_not_holds hmem (holds_keepBoth _ p c) fun q d he => ?_
      cases he
      simpa using hr
    · exact mem_apply_iff.mpr (Or.inl ⟨p, c, hmem, hr, rfl⟩)
  setAside p c ha := by
    rcases mem_apply_iff.mp ha with ⟨q, d, hmem, hr, he⟩ | ⟨hmem, -⟩
    · cases he
      exact Or.inr ⟨hmem, refusesUpload_iff.mp hr⟩
    · exact Or.inl hmem
  unwritten a ha hl := by
    cases a with
    | download _ | deleteLocal _ | removeLocalDirectory _ | createLocalDirectory _ | forget _ =>
      exact mem_apply_of_not_holds ha rfl fun _ _ he => nomatch he
    | _ => cases hl
  outside a ha hout := by
    have hs := shelved_fromMounts mounts
    have hapart : ∀ q ∈ a.paths, ¬ ∃ top, (fromMounts mounts).shelf = some top ∧
        (q = top ∨ q.isInside top = true) := by
      rintro q hq ⟨top, htop, hup⟩
      obtain ⟨hne, hno⟩ := hout top htop q hq
      rcases hup with heq | hin
      · exact hne heq
      · rw [hno] at hin
        cases hin
    have hsubject : a.subject ∈ a.paths := by
      cases a <;> simp [Action.subject, Action.paths]
    refine mem_apply_of_not_holds ha ?_ fun p c he => ?_
    · by_contra hh
      exact hapart a.subject hsubject (hs.of_holds (by simpa using hh))
    · by_contra hr
      refine hapart c (by simp [he, Action.paths]) (hs.refused (refusesUpload_iff.mp ?_))
      simpa using hr
  allowed a ha p hp hnr hnl := by
    refine mem_apply_of_not_holds ha ?_ fun q c he => ?_
    · by_contra hh
      rcases holds_iff.mp (by simpa using hh) with ⟨q, hq, -, hr⟩ | ⟨q, hq, -⟩
      · rw [hp] at hq
        cases hq
        exact hr.elim hnr hnl
      · cases a <;> simp_all [Action.puts, Action.unlinks]
    · rw [he] at hp
      cases hp
      by_contra hr
      exact (refusesUpload_iff.mp (by simpa using hr)).elim hnr hnl
  removable a ha p hp hnr hnf hroots := by
    refine mem_apply_of_not_holds ha ?_ fun q c he => ?_
    · by_contra hh
      rcases holds_iff.mp (by simpa using hh) with ⟨q, hq, -⟩ | ⟨q, hq, hr | hf | ⟨d, hd, hf, hin⟩⟩
      · cases a <;> simp_all [Action.puts, Action.unlinks]
      all_goals
        rw [hp] at hq
        cases hq
      · exact hnr hr
      · exact hnf hf
      · rw [hroots d hd hf] at hin
        cases hin
    · rw [he] at hp
      cases hp
  order := ⟨_, List.filter_sublist, apply_actions⟩

end Held

end Stashden.Sync
