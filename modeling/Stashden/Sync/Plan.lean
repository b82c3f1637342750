import Stashden.Sync.Conflict
import Stashden.Sync.Snapshot

/-!
# The plan (`plan.rs`)

`reconcile` visits every path of the two sides and the base in order and pushes what it decides on
one of six lists; the plan is these lists one after the other. The decision for one path is
`verdict`, the push is `Lists.push`, so the loop is a fold of the one over the other.

* `mem_actions_iff`: an action is planned iff it is `Warranted`, which says what the two sides and
  the base hold at its path. Every path has at most one action (`eq_of_warranted_of_subject`).
* `holdsOnly_iff`: the range scan of `holds_only_what_was_synced` answers whether every path inside
  the directory carries what the base records, siblings such as `d!x` in between or not.
* `actions_eq` gives the plan's order: slot after slot, the two lists of removals reversed;
  `actions_pairwise` states it for any two actions of a plan.
-/

namespace Stashden.Sync

open Lib RelPath

/-- `Action`. -/
inductive Action where
  | createLocalDirectory (path : RelPath)
  | createRemoteDirectory (path : RelPath)
  | download (path : RelPath)
  | upload (path : RelPath)
  | deleteLocal (path : RelPath)
  | deleteRemote (path : RelPath)
  | removeLocalDirectory (path : RelPath)
  | removeRemoteDirectory (path : RelPath)
  | forget (path : RelPath)
  | keepBoth (path localCopy : RelPath)
  | setAside (path localCopy : RelPath)
  deriving DecidableEq

/-- `subject`. -/
def Action.subject : Action → RelPath
  | .createLocalDirectory p | .createRemoteDirectory p | .download p | .upload p | .deleteLocal p
  | .deleteRemote p | .removeLocalDirectory p | .removeRemoteDirectory p | .forget p
  | .keepBoth p _ | .setAside p _ => p

/-- `Plan`. -/
structure Plan where
  actions : List Action
  blocked : List RelPath
  held : List RelPath
  deriving DecidableEq

/-- `holds_only_what_was_synced`. -/
def holdsOnlyWhatWasSynced (remote base : Snapshot) (directory : RelPath) : Bool :=
  ((((remote.scanFrom directory).dropWhile fun e => decide (e.1 = directory)).takeWhile fun e =>
    e.1.startsWith directory).filter fun e => e.1.isInside directory).all fun e =>
      decide (base.get e.1 = some e.2)

/-- **The scan of `holds_only_what_was_synced` reads exactly what is inside the directory.** -/
theorem holdsOnly_iff {remote base : Snapshot} {d : RelPath} :
    holdsOnlyWhatWasSynced remote base d = true ↔
      ∀ p e, p.isInside d = true → remote.get p = some e → base.get p = some e := by
  have hscan := @OrdMap.scan_prefix _ _ _ remote d (fun p => p.startsWith d)
    (fun a b hda hab hb => startsWith_of_between hda hab hb)
  unfold holdsOnlyWhatWasSynced
  rw [List.all_eq_true]
  constructor
  · intro h p e hin hget
    have hmem := hscan.mpr ⟨OrdMap.get_eq_some_iff.mp hget, lt_of_isInside hin,
      startsWith_of_isInside hin⟩
    simpa using h (p, e) (List.mem_filter.mpr ⟨hmem, by simpa using hin⟩)
  · intro h x hx
    obtain ⟨hmem, hin⟩ := List.mem_filter.mp hx
    have hget := OrdMap.get_eq_some_iff.mpr (hscan.mp hmem).1
    simpa using h x.1 x.2 (by simpa using hin) hget

/-- **`holds_only_what_was_synced` is its plain definition**: everything the server has below the
directory carries what the base records, whatever sorts in between. -/
theorem holdsOnly_plain (remote base : Snapshot) (d : RelPath) :
    holdsOnlyWhatWasSynced remote base d = true ↔
      ∀ p e rest, remote.get p = some e → p.str = d.str ++ '/' :: rest → base.get p = some e := by
  rw [holdsOnly_iff]
  constructor
  · intro h p e rest hget heq
    exact h p e (isInside_iff.mpr ⟨rest, heq⟩) hget
  · intro h p e hin hget
    obtain ⟨rest, heq⟩ := isInside_iff.mp hin
    exact h p e rest hget heq

/-- `for_file`. -/
def forFile (path : RelPath) (here there base : Option Entry) (now : DateTime) : Option Action :=
  match here, there with
  | some left, some right =>
    if left = right then none
    else if base = some left then some (.download path)
    else if base = some right then some (.upload path)
    else (conflictCopy path now).map (.keepBoth path)
  | some left, none => if base = some left then some (.deleteLocal path) else some (.upload path)
  | none, some right =>
    if base = some right then some (.deleteRemote path) else some (.download path)
  | none, none => none

/-- The lists `reconcile` collects into, in the order the plan runs them. -/
inductive Slot where
  | created | transfers | deletions | removedRemotely | removed | forgotten
  deriving DecidableEq

/-- What one path comes to: an action for one of the lists, a clash of kinds, or nothing. -/
inductive Verdict where
  | push (slot : Slot) (action : Action)
  | blocked
  | nothing
  deriving DecidableEq

/-- The list a file's action is pushed on. -/
def fileVerdict : Option Action → Verdict
  | some (.deleteLocal p) => .push .deletions (.deleteLocal p)
  | some (.deleteRemote p) => .push .deletions (.deleteRemote p)
  | some other => .push .transfers other
  | none => .nothing

/-- The arms of `reconcile`'s match for one path. -/
def verdict (localSide remote base : Snapshot) (now : DateTime) (path : RelPath) : Verdict :=
  match localSide.get path, remote.get path with
  | some .directory, some .directory => .nothing
  | none, none => if base.containsKey path then .push .forgotten (.forget path) else .nothing
  | none, some .directory =>
    if !base.containsKey path then .push .created (.createLocalDirectory path)
    else if holdsOnlyWhatWasSynced remote base path then
      .push .removedRemotely (.removeRemoteDirectory path)
    else .nothing
  | some .directory, none =>
    if base.containsKey path then .push .removed (.removeLocalDirectory path)
    else .push .created (.createRemoteDirectory path)
  | some (.file ..), some .directory => .blocked
  | some .directory, some (.file ..) => .blocked
  | here, there => fileVerdict (forFile path here there (base.get path) now)

/-- The vectors `reconcile` fills. -/
structure Lists where
  list : Slot → List Action
  blocked : List RelPath

/-- One turn of the loop. -/
def Lists.push (lists : Lists) (path : RelPath) : Verdict → Lists
  | .push slot action =>
    { lists with list := Function.update lists.list slot (lists.list slot ++ [action]) }
  | .blocked => { lists with blocked := lists.blocked ++ [path] }
  | .nothing => lists

/-- `paths`: the keys of the two sides and the base, in order. -/
def allPaths (localSide remote base : Snapshot) : List RelPath :=
  OrdMap.collect (localSide.keys ++ remote.keys ++ base.keys)

/-- `reconcile`. -/
def reconcile (localSide remote base : Snapshot) (now : DateTime) : Plan :=
  let lists : Lists := (allPaths localSide remote base).foldl
    (fun (lists : Lists) path => lists.push path (verdict localSide remote base now path)) ⟨fun _ => [], []⟩
  { actions := lists.list .created ++ lists.list .transfers ++ lists.list .deletions ++
      (lists.list .removedRemotely).reverse ++ (lists.list .removed).reverse ++
      lists.list .forgotten
    blocked := lists.blocked
    held := [] }

/-! ## When an action is planned -/

/-- The list an action is pushed on. -/
def Action.slot : Action → Slot
  | .createLocalDirectory _ | .createRemoteDirectory _ => .created
  | .download _ | .upload _ | .keepBoth _ _ | .setAside _ _ => .transfers
  | .deleteLocal _ | .deleteRemote _ => .deletions
  | .removeRemoteDirectory _ => .removedRemotely
  | .removeLocalDirectory _ => .removed
  | .forget _ => .forgotten

/-- What the two sides and the base hold at an action's path, for each action. -/
def Warranted (localSide remote base : Snapshot) (now : DateTime) : Action → Prop
  | .createLocalDirectory p =>
    localSide.get p = none ∧ remote.get p = some .directory ∧ base.get p = none
  | .createRemoteDirectory p =>
    localSide.get p = some .directory ∧ remote.get p = none ∧ base.get p = none
  | .download p => ∃ t n, remote.get p = some (.file t n) ∧
      ((localSide.get p = none ∧ base.get p ≠ some (.file t n)) ∨
        ∃ t' n', localSide.get p = some (.file t' n') ∧ localSide.get p ≠ remote.get p ∧
          base.get p = localSide.get p)
  | .upload p => ∃ t n, localSide.get p = some (.file t n) ∧
      ((remote.get p = none ∧ base.get p ≠ some (.file t n)) ∨
        ∃ t' n', remote.get p = some (.file t' n') ∧ localSide.get p ≠ remote.get p ∧
          base.get p = remote.get p)
  | .deleteLocal p => ∃ t n, localSide.get p = some (.file t n) ∧ remote.get p = none ∧
      base.get p = localSide.get p
  | .deleteRemote p => ∃ t n, remote.get p = some (.file t n) ∧ localSide.get p = none ∧
      base.get p = remote.get p
  | .removeLocalDirectory p =>
    localSide.get p = some .directory ∧ remote.get p = none ∧ base.get p ≠ none
  | .removeRemoteDirectory p =>
    localSide.get p = none ∧ remote.get p = some .directory ∧ base.get p ≠ none ∧
      ∀ q e, q.isInside p = true → remote.get q = some e → base.get q = some e
  | .forget p => localSide.get p = none ∧ remote.get p = none ∧ base.get p ≠ none
  | .keepBoth p c =>
    (∃ t n t' n', localSide.get p = some (.file t n) ∧ remote.get p = some (.file t' n')) ∧
      localSide.get p ≠ remote.get p ∧ base.get p ≠ localSide.get p ∧
      base.get p ≠ remote.get p ∧ conflictCopy p now = some c
  | .setAside _ _ => False

variable {localSide remote base : Snapshot} {now : DateTime}

/-- **What a path decides is about that path, and warranted there.** -/
theorem warranted_of_verdict {p : RelPath} {slot : Slot} {a : Action}
    (h : verdict localSide remote base now p = .push slot a) :
    a.subject = p ∧ a.slot = slot ∧ Warranted localSide remote base now a := by
  obtain ⟨c, hc, -⟩ := conflictCopy_spec p now
  have hcon := @OrdMap.containsKey_eq_false_iff _ _ _ base p
  have hone := @holdsOnly_iff remote base p
  unfold verdict at h
  rcases hl : localSide.get p with _ | (_ | ⟨t, n⟩) <;>
    rcases hr : remote.get p with _ | (_ | ⟨t', n'⟩)
  all_goals simp only [hl, hr, forFile, hc, Option.map_some] at h
  all_goals try split_ifs at h
  all_goals cases h
  all_goals simp_all [Warranted, Action.slot, Action.subject]

theorem verdict_of_warranted {a : Action} (h : Warranted localSide remote base now a) :
    verdict localSide remote base now a.subject = .push a.slot a := by
  cases a with
  | createLocalDirectory p =>
    obtain ⟨hl, hr, hb⟩ := h
    simp [verdict, Action.subject, Action.slot, hl, hr, OrdMap.containsKey_eq_false_iff.mpr hb]
  | createRemoteDirectory p =>
    obtain ⟨hl, hr, hb⟩ := h
    simp [verdict, Action.subject, Action.slot, hl, hr, OrdMap.containsKey_eq_false_iff.mpr hb]
  | download p =>
    obtain ⟨t, n, hr, ⟨hl, hb⟩ | ⟨t', n', hl, hne, hb⟩⟩ := h
    · simp [verdict, forFile, fileVerdict, Action.subject, Action.slot, hl, hr, hb]
    · have hne' : Entry.file t' n' ≠ Entry.file t n := fun e => hne (by rw [hl, hr, e])
      simp only [verdict, forFile, Action.subject, hl, hr, hb, if_neg hne', if_true]
      rfl
  | upload p =>
    obtain ⟨t, n, hl, ⟨hr, hb⟩ | ⟨t', n', hr, hne, hb⟩⟩ := h
    · simp [verdict, forFile, fileVerdict, Action.subject, Action.slot, hl, hr, hb]
    · have hne' : Entry.file t n ≠ Entry.file t' n' := fun e => hne (by rw [hl, hr, e])
      have hbl : base.get p ≠ some (.file t n) := fun e => hne (by rw [hl, ← e, hb])
      show verdict localSide remote base now p = _
      simp only [verdict, forFile, hl, hr, if_neg hne']
      rw [if_neg hbl, if_pos (hb.trans hr)]
      rfl
  | deleteLocal p =>
    obtain ⟨t, n, hl, hr, hb⟩ := h
    simp [verdict, forFile, fileVerdict, Action.subject, Action.slot, hl, hr, hb]
  | deleteRemote p =>
    obtain ⟨t, n, hr, hl, hb⟩ := h
    simp [verdict, forFile, fileVerdict, Action.subject, Action.slot, hl, hr, hb]
  | removeLocalDirectory p =>
    obtain ⟨hl, hr, hb⟩ := h
    obtain ⟨b, hb⟩ := Option.ne_none_iff_exists'.mp hb
    simp [verdict, Action.subject, Action.slot, hl, hr, OrdMap.containsKey, hb]
  | removeRemoteDirectory p =>
    obtain ⟨hl, hr, hb, hin⟩ := h
    obtain ⟨b, hb⟩ := Option.ne_none_iff_exists'.mp hb
    simp [verdict, Action.subject, Action.slot, hl, hr, OrdMap.containsKey, hb,
      holdsOnly_iff.mpr hin]
  | forget p =>
    obtain ⟨hl, hr, hb⟩ := h
    obtain ⟨b, hb⟩ := Option.ne_none_iff_exists'.mp hb
    simp [verdict, Action.subject, Action.slot, hl, hr, OrdMap.containsKey, hb]
  | keepBoth p c =>
    obtain ⟨⟨t, n, t', n', hl, hr⟩, hne, hbl, hbr, hc⟩ := h
    have hne' : Entry.file t n ≠ Entry.file t' n' := fun e => hne (by rw [hl, hr, e])
    rw [hl] at hbl
    rw [hr] at hbr
    simp only [verdict, forFile, Action.subject, hl, hr, if_neg hne', if_neg hbl, if_neg hbr, hc,
      Option.map_some]
    rfl
  | setAside p c => exact absurd h id

/-- A path no map knows decides nothing. -/
theorem verdict_of_absent {p : RelPath} (hl : localSide.get p = none)
    (hr : remote.get p = none) (hb : base.get p = none) :
    verdict localSide remote base now p = .nothing := by
  unfold verdict
  rw [hl, hr]
  simp [OrdMap.containsKey_eq_false_iff.mpr hb]

/-! ## What a plan holds -/

/-- The action a verdict pushes on `slot`. -/
def Verdict.on (slot : Slot) : Verdict → Option Action
  | .push slot' action => if slot' = slot then some action else none
  | _ => none

theorem Verdict.on_eq_some_iff {slot : Slot} {v : Verdict} {a : Action} :
    v.on slot = some a ↔ v = .push slot a := by
  cases v <;> simp [Verdict.on]

/-- The list of a slot after the loop: what the visited paths push on it, in order. -/
theorem list_foldl (paths : List RelPath) (lists : Lists) (slot : Slot) :
    (paths.foldl (fun (lists : Lists) path =>
        lists.push path (verdict localSide remote base now path)) lists).list slot =
      lists.list slot ++
        paths.filterMap fun path => (verdict localSide remote base now path).on slot := by
  induction paths generalizing lists with
  | nil => simp
  | cons path paths ih =>
    rw [List.foldl_cons, ih, List.filterMap_cons]
    cases verdict localSide remote base now path with
    | push slot' action =>
      by_cases h : slot' = slot
      · subst h
        simp [Lists.push, Verdict.on]
      · simp [Lists.push, Verdict.on, h, Function.update_of_ne (Ne.symm h)]
    | blocked => simp [Lists.push, Verdict.on]
    | nothing => simp [Lists.push, Verdict.on]

/-- What the plan runs for one slot, before any reversal. -/
def planned (localSide remote base : Snapshot) (now : DateTime) (slot : Slot) : List Action :=
  (allPaths localSide remote base).filterMap fun path =>
    (verdict localSide remote base now path).on slot

/-- **The order of a plan**: slot after slot, the two lists of removals reversed. -/
theorem actions_eq :
    (reconcile localSide remote base now).actions =
      planned localSide remote base now .created ++ planned localSide remote base now .transfers ++
        planned localSide remote base now .deletions ++
        (planned localSide remote base now .removedRemotely).reverse ++
        (planned localSide remote base now .removed).reverse ++
        planned localSide remote base now .forgotten := by
  unfold reconcile planned
  simp only [list_foldl, List.nil_append]

theorem mem_allPaths {p : RelPath} :
    p ∈ allPaths localSide remote base ↔
      localSide.get p ≠ none ∨ remote.get p ≠ none ∨ base.get p ≠ none := by
  unfold allPaths
  simp only [OrdMap.mem_collect, List.mem_append, OrdMap.mem_keys_iff, Option.ne_none_iff_exists',
    or_assoc]

theorem mem_planned_iff {slot : Slot} {a : Action} :
    a ∈ planned localSide remote base now slot ↔
      a.slot = slot ∧ Warranted localSide remote base now a := by
  unfold planned
  simp only [List.mem_filterMap, Verdict.on_eq_some_iff]
  constructor
  · rintro ⟨p, -, h⟩
    exact (warranted_of_verdict h).2
  · rintro ⟨rfl, h⟩
    refine ⟨a.subject, mem_allPaths.mpr ?_, verdict_of_warranted h⟩
    by_contra hno
    simp only [not_or, not_not] at hno
    have hv := verdict_of_warranted h
    rw [verdict_of_absent hno.1 hno.2.1 hno.2.2] at hv
    exact absurd hv (by simp)

/-- **An action is planned iff it is warranted.** -/
theorem mem_actions_iff {a : Action} :
    a ∈ (reconcile localSide remote base now).actions ↔
      Warranted localSide remote base now a := by
  rw [actions_eq]
  simp only [List.mem_append, List.mem_reverse, mem_planned_iff]
  constructor
  · rintro (((((h | h) | h) | h) | h) | h)
    all_goals exact h.2
  · intro h
    cases hs : a.slot <;> simp [h]

/-- The blocked paths after the loop. -/
theorem blocked_foldl (paths : List RelPath) (lists : Lists) :
    (paths.foldl (fun (lists : Lists) path =>
        lists.push path (verdict localSide remote base now path)) lists).blocked =
      lists.blocked ++
        paths.filter fun path => decide (verdict localSide remote base now path = .blocked) := by
  induction paths generalizing lists with
  | nil => simp
  | cons path paths ih =>
    rw [List.foldl_cons, ih]
    cases hv : verdict localSide remote base now path <;> simp [hv, Lists.push]

/-- A path is blocked where a file stands against a directory. -/
theorem mem_blocked_iff {p : RelPath} :
    p ∈ (reconcile localSide remote base now).blocked ↔
      (∃ t n, localSide.get p = some (.file t n) ∧ remote.get p = some .directory) ∨
        ∃ t n, localSide.get p = some .directory ∧ remote.get p = some (.file t n) := by
  have hmem : p ∈ (reconcile localSide remote base now).blocked ↔
      p ∈ allPaths localSide remote base ∧
        verdict localSide remote base now p = .blocked := by
    unfold reconcile
    simp only [blocked_foldl]
    simp
  rw [hmem, mem_allPaths]
  obtain ⟨c, hc, -⟩ := conflictCopy_spec p now
  constructor
  · rintro ⟨-, hv⟩
    unfold verdict at hv
    rcases hl : localSide.get p with _ | (_ | ⟨t, n⟩) <;>
      rcases hr : remote.get p with _ | (_ | ⟨t', n'⟩)
    all_goals simp only [hl, hr, forFile, hc, Option.map_some] at hv
    all_goals try split_ifs at hv
    all_goals first | contradiction | simp_all
  · rintro (⟨t, n, hl, hr⟩ | ⟨t, n, hl, hr⟩)
    · exact ⟨Or.inl (by simp [hl]), by simp [verdict, hl, hr]⟩
    · exact ⟨Or.inl (by simp [hl]), by simp [verdict, hl, hr]⟩

/-- A path has at most one action. -/
theorem eq_of_warranted_of_subject {a b : Action} (ha : Warranted localSide remote base now a)
    (hb : Warranted localSide remote base now b) (h : a.subject = b.subject) : a = b := by
  have hv := verdict_of_warranted ha
  rw [h, verdict_of_warranted hb] at hv
  exact (Verdict.push.inj hv).2.symm

/-! ## The order of a plan -/

/-- The place of a list in the plan. -/
def Slot.rank : Slot → Nat
  | .created => 0
  | .transfers => 1
  | .deletions => 2
  | .removedRemotely => 3
  | .removed => 4
  | .forgotten => 5

/-- The lists that run backwards. -/
def Slot.backwards : Slot → Bool
  | .removedRemotely | .removed => true
  | _ => false

/-- What it means to stand earlier in a plan: another path, an earlier list, or the same list with
the path before, after it where the list runs backwards. -/
def Action.Precedes (a b : Action) : Prop :=
  a.subject ≠ b.subject ∧
    (a.slot.rank < b.slot.rank ∨
      (a.slot = b.slot ∧
        if a.slot.backwards then b.subject < a.subject else a.subject < b.subject))

theorem planned_sorted (slot : Slot) :
    (planned localSide remote base now slot).Pairwise fun a b => a.subject < b.subject := by
  unfold planned
  refine List.Pairwise.filterMap _ ?_ (OrdMap.collect_sorted _)
  intro p q hpq a ha b hb
  have hsub : ∀ {path : RelPath} {c : Action},
      (verdict localSide remote base now path).on slot = some c → c.subject = path :=
    fun h => (warranted_of_verdict (Verdict.on_eq_some_iff.mp h)).1
  rw [hsub ha, hsub hb]
  exact hpq

theorem planned_precedes {slot : Slot} (h : slot.backwards = false) :
    (planned localSide remote base now slot).Pairwise Action.Precedes := by
  refine (planned_sorted slot).imp_of_mem fun ha hb hab => ⟨ne_of_lt hab, Or.inr ?_⟩
  rw [(mem_planned_iff.mp ha).1, (mem_planned_iff.mp hb).1, h]
  exact ⟨rfl, hab⟩

theorem planned_reverse_precedes {slot : Slot} (h : slot.backwards = true) :
    (planned localSide remote base now slot).reverse.Pairwise Action.Precedes := by
  rw [List.pairwise_reverse]
  refine (planned_sorted slot).imp_of_mem fun ha hb hab => ⟨(ne_of_lt hab).symm, Or.inr ?_⟩
  rw [(mem_planned_iff.mp ha).1, (mem_planned_iff.mp hb).1, h]
  exact ⟨rfl, hab⟩

/-- **A plan is in order.** -/
theorem actions_pairwise :
    (reconcile localSide remote base now).actions.Pairwise Action.Precedes := by
  have hcross : ∀ {s t : Slot} {a b : Action}, s.rank < t.rank →
      a ∈ planned localSide remote base now s → b ∈ planned localSide remote base now t →
      a.Precedes b := by
    intro s t a b hst ha hb
    obtain ⟨rfl, hwa⟩ := mem_planned_iff.mp ha
    obtain ⟨rfl, hwb⟩ := mem_planned_iff.mp hb
    refine ⟨fun e => ?_, Or.inl hst⟩
    rw [eq_of_warranted_of_subject hwa hwb e] at hst
    exact lt_irrefl _ hst
  rw [actions_eq]
  simp only [List.pairwise_append, List.mem_append, List.mem_reverse]
  refine ⟨⟨⟨⟨⟨planned_precedes rfl, planned_precedes rfl, ?_⟩, planned_precedes rfl, ?_⟩,
    planned_reverse_precedes rfl, ?_⟩, planned_reverse_precedes rfl, ?_⟩, planned_precedes rfl, ?_⟩
  · exact fun a ha b hb => hcross (by decide) ha hb
  · rintro a (ha | ha) b hb
    all_goals exact hcross (by decide) ha hb
  · rintro a ((ha | ha) | ha) b hb
    all_goals exact hcross (by decide) ha hb
  · rintro a (((ha | ha) | ha) | ha) b hb
    all_goals exact hcross (by decide) ha hb
  · rintro a ((((ha | ha) | ha) | ha) | ha) b hb
    all_goals exact hcross (by decide) ha hb

end Stashden.Sync
