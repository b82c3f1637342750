import Stashden.Sync.Effect

/-!
# What an action leaves alone

For a path that is not an action's subject, `effect` changes it in few ways: directories are made
above a subject, a subtree is removed with the directory it is in, a copy lands on it. The lemmas
`frame_*` say when nothing of this happens, for the disk, the server and the record.

`Planned.not_made_locally`, `Planned.not_made_remotely` and `Planned.removed_above` turn "above a
subject" into facts about the two trees at the path: what is made on the disk stands in the listing,
what is made on the server stands in the folder, what is removed with its directory is gone from the
folder and recorded as listed.

`run` is the effect of a whole list of actions, `EnabledAlong` that each succeeds where it stands;
`run_invariant` and `run_split` are the rules the passes are proved with.
-/

namespace Stashden.Sync

open Lib RelPath

/-- The name a local file is moved to. -/
def Action.copy : Action → Option RelPath
  | .keepBoth _ c | .setAside _ c => some c
  | _ => none

/-- The actions that make directories on the disk. -/
def Action.makesLocal : Action → Bool
  | .createLocalDirectory _ | .download _ | .keepBoth _ _ | .setAside _ _ => true
  | _ => false

/-- The actions that make directories on the server. -/
def Action.makesRemote : Action → Bool
  | .createRemoteDirectory _ | .upload _ | .keepBoth _ _ => true
  | _ => false

/-- The actions that remove a subtree of the server. -/
def Action.removes : Action → Bool
  | .deleteRemote _ | .removeRemoteDirectory _ => true
  | _ => false

/-- The actions that bring the server's version of their subject. -/
def Action.fetches : Action → Bool
  | .download _ | .keepBoth _ _ | .setAside _ _ => true
  | _ => false

theorem isInside_congr {p q d : RelPath} (h : p.parent = q.parent) :
    p.isInside d = q.isInside d := by
  rw [Bool.eq_iff_iff, isInside_iff_parent, isInside_iff_parent, h]

/-- A transfer does not come after a removal or a deletion. -/
theorem not_precedes_transfer {a c : Action} (hord : a.Precedes c) (ha : 1 < a.slot.rank)
    (hc : c.slot = .transfers) : False := by
  rcases hord.2 with hlt | ⟨heq, -⟩
  · rw [hc] at hlt
    have : Slot.transfers.rank = 1 := rfl
    omega
  · rw [heq, hc] at ha
    exact absurd ha (by decide)

theorem slot_of_copy {a : Action} {c : RelPath} (hc : a.copy = some c) : a.slot = .transfers := by
  cases a with
  | keepBoth => rfl
  | setAside => rfl
  | _ => exact absurd hc (by simp [Action.copy])

section Frame

variable {scanned listing : RelPath → Option Entry} {a : Action} {s : Sides} {p : RelPath}
  {e : Entry}

theorem put_of_ne {q : RelPath} {o : Option Entry} {f : RelPath → Option Entry} (h : p ≠ q) :
    put q o f p = if f q = none ∧ q.isInside p = true then some .directory else f p := by
  unfold put
  rw [Function.update_of_ne h]
  by_cases hf : f q = none
  · by_cases hin : q.isInside p = true <;> simp [hf, hin, dirsAbove]
  · simp [hf]

/-! ## One path after an action on another -/

theorem disk_of_ne (h : a.subject ≠ p) :
    (effect scanned listing a s).disk p =
      if a.makesLocal = true ∧ a.subject.isInside p = true then some .directory
      else if a.copy = some p then s.disk a.subject else s.disk p := by
  have hp : p ≠ a.subject := Ne.symm h
  cases a
  all_goals
    simp only [Action.subject] at h hp ⊢
    simp only [effect, Sides.fetch, Sides.moveTo, Action.makesLocal, Action.copy, dirsAbove,
      Function.update_apply, if_neg hp, true_and, Option.some.injEq, reduceCtorEq, if_false,
      false_and, Bool.false_eq_true, eq_comm]

theorem server_of_ne (h : a.subject ≠ p) :
    (effect scanned listing a s).server p =
      match a with
      | .createRemoteDirectory q => if q.isInside p then some .directory else s.server p
      | .upload q => if s.server q = none ∧ q.isInside p = true then some .directory else s.server p
      | .keepBoth q c =>
        if p = c then s.disk q
        else if s.server c = none ∧ c.isInside p = true then some .directory else s.server p
      | .deleteRemote q | .removeRemoteDirectory q => if p.isInside q then none else s.server p
      | _ => s.server p := by
  have hp : p ≠ a.subject := Ne.symm h
  cases a with
  | keepBoth q c =>
    show put c (s.disk q) s.server p = _
    by_cases hc : p = c
    · subst hc
      simp [put]
    · rw [put_of_ne hc]
      simp [hc]
  | upload q => exact put_of_ne hp
  | createRemoteDirectory q => exact Function.update_of_ne hp _ _
  | deleteRemote q =>
    show cut q s.server p = _
    have hq : p ≠ q := hp
    simp [cut, atOrInside, hq]
  | removeRemoteDirectory q =>
    show cut q s.server p = _
    have hq : p ≠ q := hp
    simp [cut, atOrInside, hq]
  | _ => rfl

theorem base_of_ne (h : a.subject ≠ p) :
    (effect scanned listing a s).base p =
      match a with
      | .upload q => if q.isInside p then some .directory else s.base p
      | .keepBoth q c => if p = c then scanned q else s.base p
      | _ => s.base p := by
  have hp : p ≠ a.subject := Ne.symm h
  cases a
  all_goals
    simp only [Action.subject] at hp
    simp only [effect, Sides.fetch, dirsAbove, Function.update_apply, if_neg hp]

/-! ## Frames -/

/-- Where an action makes directories on the disk, no file is in the way. -/
theorem freeAbove_of_makesLocal (hen : Enabled listing a s) (hm : a.makesLocal = true) :
    FreeAbove a.subject s.disk := by
  cases a with
  | createLocalDirectory q => exact hen.2
  | download q => exact hen.2.2
  | keepBoth q c => exact hen.1.2.2
  | setAside q c => exact hen.2.2
  | _ => exact absurd hm (by simp [Action.makesLocal])

/-- A copy lands on no directory. -/
theorem copy_not_directory (hen : Enabled listing a s) (hc : a.copy = some p) :
    s.disk p ≠ some .directory := by
  cases a with
  | keepBoth q c =>
    cases hc
    exact hen.1.2.1
  | setAside q c =>
    cases hc
    exact hen.2.1
  | _ => exact absurd hc (by simp [Action.copy])

/-- What is moved onto a copy is a file. -/
theorem file_of_copy (hen : Enabled listing a s) (hc : a.copy = some p) :
    ∃ t n, s.disk a.subject = some (.file t n) := by
  cases a with
  | keepBoth q c => exact hen.1.1
  | setAside q c => exact hen.1
  | _ => exact absurd hc (by simp [Action.copy])

/-- What stands on the disk stays, unless a copy lands on it; on a directory none can. -/
theorem frame_disk_some (hen : Enabled listing a s) (hsub : a.subject ≠ p)
    (hs : s.disk p = some e) (hcopy : a.copy ≠ some p ∨ e = .directory) :
    (effect scanned listing a s).disk p = some e := by
  rw [disk_of_ne hsub]
  split_ifs with hmade hc
  · rcases freeAbove_of_makesLocal hen hmade.1 p hmade.2 with hn | hd
    · rw [hs] at hn
      exact absurd hn (by simp)
    · rw [← hd, hs]
  · rcases hcopy with h | rfl
    · exact absurd hc h
    · exact absurd hs (copy_not_directory hen hc)
  · exact hs

/-- What is absent from the disk stays absent, unless something inside is made or a copy lands. -/
theorem frame_disk_none (hsub : a.subject ≠ p) (hs : s.disk p = none)
    (hmade : a.makesLocal = true → a.subject.isInside p = false) (hcopy : a.copy ≠ some p) :
    (effect scanned listing a s).disk p = none := by
  rw [disk_of_ne hsub, if_neg fun h => ?_, if_neg hcopy, hs]
  rw [hmade h.1] at h
  exact absurd h.2 (by simp)

/-- A path that is no directory becomes none, unless something inside is made. -/
theorem frame_disk_not_directory (hen : Enabled listing a s) (hsub : a.subject ≠ p)
    (hs : s.disk p ≠ some .directory)
    (hmade : a.makesLocal = true → a.subject.isInside p = false) :
    (effect scanned listing a s).disk p ≠ some .directory := by
  rw [disk_of_ne hsub, if_neg fun h => by rw [hmade h.1] at h; exact absurd h.2 (by simp)]
  split_ifs with hc
  · obtain ⟨t, n, hf⟩ := file_of_copy hen hc
    simp [hf]
  · exact hs

/-- A file's place stays a file's: no directory is made there, and what lands there is a file. -/
theorem frame_disk_file (hen : Enabled listing a s) (hsub : a.subject ≠ p)
    (hs : ∃ t n, s.disk p = some (.file t n)) :
    ∃ t n, (effect scanned listing a s).disk p = some (.file t n) := by
  obtain ⟨t, n, hs⟩ := hs
  by_cases hc : a.copy = some p
  · rw [disk_of_ne hsub, if_neg fun hm => ?_, if_pos hc]
    · exact file_of_copy hen hc
    · rcases freeAbove_of_makesLocal hen hm.1 p hm.2 with hn | hd
      · rw [hs] at hn
        exact absurd hn (by simp)
      · rw [hs] at hd
        exact absurd hd (by simp)
  · exact ⟨t, n, frame_disk_some hen hsub hs (Or.inl hc)⟩

/-- What stands on the server stays, unless it is removed with a directory above it. -/
theorem frame_server_some (hen : Enabled listing a s) (hsub : a.subject ≠ p)
    (hs : s.server p = some e) (hrem : a.removes = true → p.isInside a.subject = false) :
    (effect scanned listing a s).server p = some e := by
  have hfree : ∀ q, FreeAbove q s.server → q.isInside p = true → some Entry.directory = some e :=
    fun q hf hin => by
      rcases hf p hin with hn | hd
      · rw [hs] at hn
        exact absurd hn (by simp)
      · rw [← hd, hs]
  rw [server_of_ne hsub]
  cases a with
  | createRemoteDirectory q =>
    simp only
    split_ifs with hin
    · exact hfree q hen.2 hin
    · exact hs
  | upload q =>
    simp only
    split_ifs with hin
    · obtain ⟨-, ⟨t, n, m, -, hq⟩ | ⟨-, -, hf⟩⟩ := hen
      · rw [hin.1] at hq
        exact absurd hq (by simp)
      · exact hfree q hf hin.2
    · exact hs
  | keepBoth q c =>
    obtain ⟨-, hnone, hf⟩ := hen
    simp only
    split_ifs with hc hin
    · rw [hc, hnone] at hs
      exact absurd hs (by simp)
    · exact hfree c hf hin.2
    · exact hs
  | deleteRemote q =>
    have hno : p.isInside q = false := hrem rfl
    simp [hno, hs]
  | removeRemoteDirectory q =>
    have hno : p.isInside q = false := hrem rfl
    simp [hno, hs]
  | _ => exact hs

/-- What is absent from the server stays absent, unless something inside is made or a copy lands. -/
theorem frame_server_none (hsub : a.subject ≠ p) (hs : s.server p = none)
    (hbeside : ∀ q c, a = .keepBoth q c → c.parent = q.parent)
    (hmade : a.makesRemote = true → a.subject.isInside p = false)
    (hcopy : ∀ q, a ≠ .keepBoth q p) : (effect scanned listing a s).server p = none := by
  rw [server_of_ne hsub]
  cases a with
  | createRemoteDirectory q =>
    have hno : q.isInside p = false := hmade rfl
    simp [hno, hs]
  | upload q =>
    have hno : q.isInside p = false := hmade rfl
    simp [hno, hs]
  | keepBoth q c =>
    have hno : c.isInside p = false := (isInside_congr (hbeside q c rfl)).trans (hmade rfl)
    have hpc : p ≠ c := fun e => hcopy q (e ▸ rfl)
    simp [hno, hpc, hs]
  | deleteRemote q => simp [hs]
  | removeRemoteDirectory q => simp [hs]
  | _ => exact hs

/-- A record stays, unless an upload inside records its directories or a copy is recorded. -/
theorem frame_base (hsub : a.subject ≠ p)
    (hup : ∀ q, a = .upload q → q.isInside p = false) (hcopy : ∀ q, a ≠ .keepBoth q p) :
    (effect scanned listing a s).base p = s.base p := by
  rw [base_of_ne hsub]
  cases a with
  | upload q => simp [hup q rfl]
  | keepBoth q c =>
    have hpc : p ≠ c := fun e => hcopy q (e ▸ rfl)
    simp [hpc]
  | _ => rfl

/-- A recorded directory stays recorded as one, where something stands on the server. -/
theorem frame_base_directory (hen : Enabled listing a s) (hsub : a.subject ≠ p)
    (hs : s.server p ≠ none) (hb : s.base p = some .directory) :
    (effect scanned listing a s).base p = some .directory := by
  rw [base_of_ne hsub]
  cases a with
  | upload q => simp [hb]
  | keepBoth q c =>
    have hpc : p ≠ c := fun e => hs (e ▸ hen.2.1)
    simp [hpc, hb]
  | _ => exact hb

variable (scanned) in
/-- A conflict's own path, after its action: the server's entry, untouched, is on both sides. -/
theorem effect_fetches {x : Action} (hx : x.fetches = true) (hen : Enabled listing x s)
    (hcopy : ∀ c, x.copy = some c → c.parent = x.subject.parent)
    (hs : s.server x.subject = some e) :
    (effect scanned listing x s).server x.subject = some e ∧
      (effect scanned listing x s).disk x.subject = some e ∧
      (effect scanned listing x s).base x.subject = listing x.subject := by
  cases x with
  | download q => exact ⟨hs, (Function.update_self _ _ _).trans hs, Function.update_self _ _ _⟩
  | keepBoth q c =>
    have hpar : c.parent = q.parent := hcopy c rfl
    have hq : s.server q = some e := hs
    have hqc : q ≠ c := fun hqc => by
      have hnone : s.server c = none := hen.2.1
      rw [← hqc, hq] at hnone
      exact absurd hnone (by simp)
    have hput : put c (s.disk q) s.server q = some e := by
      rw [put_of_ne hqc, isInside_congr hpar, not_isInside_self]
      simpa using hq
    exact ⟨hput, (Function.update_self _ _ _).trans hput, Function.update_self _ _ _⟩
  | setAside q c => exact ⟨hs, (Function.update_self _ _ _).trans hs, Function.update_self _ _ _⟩
  | _ => exact absurd hx (by simp [Action.fetches])

end Frame

/-! ## What is planned inside a path -/

section Inside

variable {localSide remote base : Snapshot} {now : DateTime} {a : Action} {p : RelPath}

/-- What `Held::apply` leaves of a plan: what is warranted, or a conflict set aside. -/
def Planned (localSide remote base : Snapshot) (now : DateTime) (a : Action) : Prop :=
  Warranted localSide remote base now a ∨
    ∃ q c, a = .setAside q c ∧ Warranted localSide remote base now (.keepBoth q c)

theorem Planned.of_setAside {q c : RelPath} (h : Planned localSide remote base now (.setAside q c)) :
    Warranted localSide remote base now (.keepBoth q c) := by
  rcases h with h | ⟨q', c', e, h⟩
  · exact absurd h id
  · cases e
    exact h

/-- A planned copy stands beside the conflict's path. -/
theorem Planned.copy_beside (h : Planned localSide remote base now a) {c : RelPath}
    (hc : a.copy = some c) : c.parent = a.subject.parent := by
  have hspec : ∀ {q c}, Warranted localSide remote base now (.keepBoth q c) →
      c.parent = q.parent := by
    intro q c hw
    obtain ⟨c', hc', hpar, -⟩ := conflictCopy_spec q now
    rw [hw.2.2.2.2] at hc'
    cases hc'
    exact hpar
  cases a with
  | keepBoth q c' =>
    cases hc
    rcases h with h | ⟨_, _, e, -⟩
    · exact hspec h
    · cases e
  | setAside q c' =>
    cases hc
    exact hspec h.of_setAside
  | _ => exact absurd hc (by simp [Action.copy])

/-- What is made on the disk stands in the listing. -/
theorem Planned.listed (h : Planned localSide remote base now a) (hm : a.makesLocal = true) :
    ∃ e, remote.get a.subject = some e := by
  cases a with
  | createLocalDirectory q =>
    rcases h with h | ⟨_, _, e, -⟩
    · exact ⟨_, h.2.1⟩
    · cases e
  | download q =>
    rcases h with ⟨t, n, h, -⟩ | ⟨_, _, e, -⟩
    · exact ⟨_, h⟩
    · cases e
  | keepBoth q c =>
    rcases h with ⟨⟨_, _, _, _, -, h⟩, -⟩ | ⟨_, _, e, -⟩
    · exact ⟨_, h⟩
    · cases e
  | setAside q c =>
    obtain ⟨⟨_, _, _, _, -, h⟩, -⟩ := h.of_setAside
    exact ⟨_, h⟩
  | _ => exact absurd hm (by simp [Action.makesLocal])

/-- What is made on the server stands in the folder. -/
theorem Planned.scanned (h : Planned localSide remote base now a) (hm : a.makesRemote = true) :
    ∃ e, localSide.get a.subject = some e := by
  cases a with
  | createRemoteDirectory q =>
    rcases h with h | ⟨_, _, e, -⟩
    · exact ⟨_, h.1⟩
    · cases e
  | upload q =>
    rcases h with ⟨t, n, h, -⟩ | ⟨_, _, e, -⟩
    · exact ⟨_, h⟩
    · cases e
  | keepBoth q c =>
    rcases h with ⟨⟨_, _, _, _, h, -⟩, -⟩ | ⟨_, _, e, -⟩
    · exact ⟨_, h⟩
    · cases e
  | _ => exact absurd hm (by simp [Action.makesRemote])

/-- Nothing is made on the disk inside a path the listing holds as no directory. -/
theorem Planned.not_made_locally (hR : remote.TreeShaped) (hp : remote.get p ≠ some .directory)
    (h : Planned localSide remote base now a) (hm : a.makesLocal = true) :
    a.subject.isInside p = false := by
  obtain ⟨e, he⟩ := h.listed hm
  rw [← Bool.not_eq_true]
  exact fun hin => hp (hR.above he hin)

/-- Nothing is made on the server inside a path the folder holds as no directory. -/
theorem Planned.not_made_remotely (hL : localSide.TreeShaped)
    (hp : localSide.get p ≠ some .directory) (h : Planned localSide remote base now a)
    (hm : a.makesRemote = true) : a.subject.isInside p = false := by
  obtain ⟨e, he⟩ := h.scanned hm
  rw [← Bool.not_eq_true]
  exact fun hin => hp (hL.above he hin)

/-- **What a removal above a path says of it**: gone from the folder, and recorded as listed. -/
theorem Planned.removed_above (hL : localSide.TreeShaped) (hR : remote.TreeShaped)
    (h : Planned localSide remote base now a) (hm : a.removes = true)
    (hin : p.isInside a.subject = true) :
    localSide.get p = none ∧ ∀ e, remote.get p = some e →
      base.get p = some e ∧ a = .removeRemoteDirectory a.subject := by
  cases a with
  | deleteRemote q =>
    rcases h with ⟨t, n, hr, hl, -⟩ | ⟨_, _, e, -⟩
    · refine ⟨hL.none_inside (d := q) (by simp [hl]) hin, fun e he => ?_⟩
      rw [hR.none_inside (d := q) (by simp [hr]) hin] at he
      exact absurd he (by simp)
    · cases e
  | removeRemoteDirectory q =>
    rcases h with ⟨hl, -, -, hall⟩ | ⟨_, _, e, -⟩
    · exact ⟨hL.none_inside (d := q) (by simp [hl]) hin, fun e he => ⟨hall p e hin he, rfl⟩⟩
    · cases e
  | _ => exact absurd hm (by simp [Action.removes])

end Inside

/-! ## Runs -/

section Runs

variable {scanned listing : RelPath → Option Entry}

/-- The effect of a list of actions. -/
def run (scanned listing : RelPath → Option Entry) (acts : List Action) (s : Sides) : Sides :=
  acts.foldl (fun s a => effect scanned listing a s) s

/-- Every action of the list succeeds where it stands. -/
inductive EnabledAlong (scanned listing : RelPath → Option Entry) : List Action → Sides → Prop
  | nil (s : Sides) : EnabledAlong scanned listing [] s
  | cons {a : Action} {acts : List Action} {s : Sides} (head : Enabled listing a s)
    (tail : EnabledAlong scanned listing acts (effect scanned listing a s)) :
    EnabledAlong scanned listing (a :: acts) s

theorem enabledAlong_cons {a : Action} {acts : List Action} {s : Sides} :
    EnabledAlong scanned listing (a :: acts) s ↔
      Enabled listing a s ∧ EnabledAlong scanned listing acts (effect scanned listing a s) :=
  ⟨fun | .cons head tail => ⟨head, tail⟩, fun h => .cons h.1 h.2⟩

theorem run_append (xs ys : List Action) (s : Sides) :
    run scanned listing (xs ++ ys) s = run scanned listing ys (run scanned listing xs s) :=
  List.foldl_append

theorem enabledAlong_append {xs ys : List Action} {s : Sides} :
    EnabledAlong scanned listing (xs ++ ys) s ↔
      EnabledAlong scanned listing xs s ∧
        EnabledAlong scanned listing ys (run scanned listing xs s) := by
  induction xs generalizing s with
  | nil => simp [EnabledAlong.nil, run]
  | cons a xs ih =>
    rw [List.cons_append, enabledAlong_cons, enabledAlong_cons, ih, and_assoc]
    rfl

/-- **The invariant rule**: what every action of the list keeps holds after the list. -/
theorem run_invariant {J : Sides → Prop} {acts : List Action} {s : Sides}
    (hen : EnabledAlong scanned listing acts s)
    (hstep : ∀ a ∈ acts, ∀ t, Enabled listing a t → J t → J (effect scanned listing a t))
    (h : J s) : J (run scanned listing acts s) := by
  induction acts generalizing s with
  | nil => exact h
  | cons a acts ih =>
    obtain ⟨hena, hrest⟩ := enabledAlong_cons.mp hen
    exact ih hrest (fun b hb => hstep b (List.mem_cons_of_mem a hb))
      (hstep a List.mem_cons_self s hena h)

/-- **The rule of one action**: what holds before it by an invariant, what it establishes, and what
the rest keeps. -/
theorem run_split {J K : Sides → Prop} {acts : List Action} {a : Action} {s : Sides}
    (hen : EnabledAlong scanned listing acts s) (hord : acts.Pairwise Action.Precedes)
    (ha : a ∈ acts)
    (hbefore : ∀ b ∈ acts, b.Precedes a →
      ∀ t, Enabled listing b t → J t → J (effect scanned listing b t))
    (hat : ∀ t, Enabled listing a t → J t → K (effect scanned listing a t))
    (hafter : ∀ b ∈ acts, a.Precedes b →
      ∀ t, Enabled listing b t → K t → K (effect scanned listing b t))
    (h : J s) : K (run scanned listing acts s) := by
  obtain ⟨pre, post, rfl⟩ := List.append_of_mem ha
  obtain ⟨-, hpost, hcross⟩ := List.pairwise_append.mp hord
  obtain ⟨hen₁, hen₂⟩ := enabledAlong_append.mp hen
  obtain ⟨hena, hen₃⟩ := enabledAlong_cons.mp hen₂
  have hJ : J (run scanned listing pre s) :=
    run_invariant hen₁ (fun b hb => hbefore b (List.mem_append_left _ hb)
      (hcross b hb a List.mem_cons_self)) h
  rw [run_append]
  show K (run scanned listing post (effect scanned listing a (run scanned listing pre s)))
  exact run_invariant hen₃ (fun b hb => hafter b
    (List.mem_append_right _ (List.mem_cons_of_mem a hb)) ((List.pairwise_cons.mp hpost).1 b hb))
    (hat _ hena hJ)

end Runs

end Stashden.Sync
