import Stashden.Sync.Conflict

/-!
# Names the engine leaves alone (`ignore.rs`, `state.rs:11-17`)

The ignore rules and the names of the engine's own state file. `to_lowercase` and the NFC form are
those of the Unicode tables the program links, so both are parameters (`Unicode`), with the one law
that lowercasing keeps a blank.

* `hides` is what the remote listing is filtered by, `Visible` what the local walk reports: the walk
  also steps over the state files, at every depth.
* `not_hides_above`: a directory above a path that is not hidden is not hidden.
-/

namespace Stashden.Sync

open Stashden.Core

/-- The Unicode tables: `str::to_lowercase` and `nfc().collect()`. A blank has no other case. -/
structure Unicode where
  lower : Str → Str
  nfc : Str → Str
  blank_mem_lower : ∀ s : Str, ' ' ∈ s → ' ' ∈ lower s

/-- The tables of plain ASCII text. -/
def Unicode.ascii : Unicode where
  lower s := s.map Char.toLower
  nfc s := s
  blank_mem_lower _ h := List.mem_map.mpr ⟨' ', h, rfl⟩

/-- `PARTIAL_SUFFIX`. -/
def partialSuffix : Str := ".stashpart".toList

/-- `SYSTEM_FILES`. -/
def systemFiles : List Str :=
  [".ds_store".toList, "thumbs.db".toList, "ehthumbs.db".toList, "desktop.ini".toList]

/-- `STATE_FILE_NAME` and `LEGACY_STATE_FILE_NAME`. -/
def stateFileName : Str := ".stashden-sync.json".toList

def legacyStateFileName : Str := ".roxycloud-sync.json".toList

/-- `is_state_file`. -/
def isStateFile (name : Str) : Bool := name == stateFileName || name == legacyStateFileName

variable (u : Unicode)

/-- `is_ignored`. -/
def isIgnored (name : Str) : Bool :=
  systemFiles.contains (u.lower name) || "~$".toList.isPrefixOf name ||
    "._".toList.isPrefixOf name ||
    (".~lock.".toList.isPrefixOf name && "#".toList.isSuffixOf name) ||
    partialSuffix.isSuffixOf name

/-- `hides`. -/
def hides (path : RelPath) : Bool := path.segments.any (isIgnored u)

/-- The names the local walk reports: neither ignored nor a state file, on any level. -/
def Visible (path : RelPath) : Prop :=
  ∀ name ∈ path.segments, isIgnored u name = false ∧ isStateFile name = false

instance (path : RelPath) : Decidable (Visible u path) :=
  inferInstanceAs (Decidable (∀ _ ∈ _, _))

variable {u}

theorem hides_eq_false_iff {path : RelPath} :
    hides u path = false ↔ ∀ name ∈ path.segments, isIgnored u name = false := by
  simp [hides]

theorem Visible.not_hides {path : RelPath} (h : Visible u path) : hides u path = false :=
  hides_eq_false_iff.mpr fun name hn => (h name hn).1

theorem RelPath.segments_subset_of_isInside {p d : RelPath} (h : p.isInside d = true) :
    d.segments ⊆ p.segments := by
  obtain ⟨rest, he⟩ := RelPath.isInside_iff.mp h
  intro name hn
  unfold RelPath.segments at hn ⊢
  rw [he, splitOn_append_slash]
  exact List.mem_append_left _ hn

/-- The segments of a path: its name, and those of the directory it is in. -/
theorem RelPath.mem_segments_iff {p : RelPath} {name : Str} :
    name ∈ p.segments ↔ name = p.fileName ∨ ∃ d, p.parent = some d ∧ name ∈ d.segments := by
  have hs := NodeName.slash_not_mem (RelPath.check_fileName p)
  unfold RelPath.segments
  cases hp : p.parent with
  | none =>
    rw [RelPath.str_eq_of_parent_none hp, splitOn_of_not_mem hs]
    simp
  | some d =>
    rw [RelPath.str_eq_of_parent hp, splitOn_append_slash, splitOn_of_not_mem hs]
    simp [or_comm]

theorem not_hides_above {p d : RelPath} (h : p.isInside d = true) (hp : hides u p = false) :
    hides u d = false :=
  hides_eq_false_iff.mpr fun name hn =>
    hides_eq_false_iff.mp hp name (RelPath.segments_subset_of_isInside h hn)

theorem Visible.above {p d : RelPath} (h : p.isInside d = true) (hp : Visible u p) : Visible u d :=
  fun name hn => hp name (RelPath.segments_subset_of_isInside h hn)

/-- A path whose name ends as an unfinished download's is hidden. -/
theorem hides_of_partialSuffix {p : RelPath} (h : partialSuffix <:+ p.fileName) : hides u p = true := by
  refine List.any_eq_true.mpr ⟨p.fileName, RelPath.mem_segments_iff.mpr (Or.inl rfl), ?_⟩
  simp [isIgnored, List.isSuffixOf_iff_suffix.mpr h]

/-! ## Conflict copies are seen -/

/-- The copy's name is ignored only if the original's is. -/
theorem isIgnored_conflictName {name : Str} {now : DateTime} (h : isIgnored u name = false) :
    isIgnored u (conflictName name now) = false := by
  have hsys : u.lower (conflictName name now) ∉ systemFiles := fun hm => by
    have hall : ∀ s ∈ systemFiles, ' ' ∉ s := by decide
    exact hall _ hm (u.blank_mem_lower _ (blank_mem_conflictName name now))
  have hstart : ∀ start : Str, ' ' ∉ start → start.isPrefixOf name = false →
      start.isPrefixOf (conflictName name now) = false := fun start hb hn => by
    rw [← Bool.not_eq_true, List.isPrefixOf_iff_prefix] at hn ⊢
    exact fun hp => hn (prefix_of_conflictName hb hp)
  have hend : ∀ ending : Str, ending ≠ [] → ')' ∉ ending → ending.isSuffixOf name = false →
      ending.isSuffixOf (conflictName name now) = false := fun ending hne hp hn => by
    rw [← Bool.not_eq_true, List.isSuffixOf_iff_suffix] at hn ⊢
    exact fun hs => hn (suffix_of_conflictName hne hp hs)
  simp only [isIgnored, Bool.or_eq_false_iff, Bool.and_eq_false_iff] at h ⊢
  obtain ⟨⟨⟨⟨-, h1⟩, h2⟩, h3⟩, h4⟩ := h
  refine ⟨⟨⟨⟨by simpa using hsys, ?_⟩, ?_⟩, ?_⟩, ?_⟩
  · exact hstart _ (by decide) h1
  · exact hstart _ (by decide) h2
  · exact h3.imp (hstart _ (by decide)) (hend _ (by decide) (by decide))
  · exact hend _ (by decide) (by decide) h4

/-- **A conflict copy of a visible path is visible.** -/
theorem visible_conflictCopy {path copy : RelPath} {now : DateTime}
    (h : conflictCopy path now = some copy) (hp : Visible u path) : Visible u copy := by
  obtain ⟨copy', hc, hpar, hname⟩ := conflictCopy_spec path now
  obtain rfl := Option.some.inj (h.symm.trans hc)
  intro name hn
  rcases RelPath.mem_segments_iff.mp hn with rfl | hd
  · rw [hname]
    refine ⟨isIgnored_conflictName (hp _ (RelPath.mem_segments_iff.mpr (Or.inl rfl))).1, ?_⟩
    have hblank := blank_mem_conflictName path.fileName now
    have hall : ∀ s ∈ [stateFileName, legacyStateFileName], ' ' ∉ s := by decide
    simp only [isStateFile, Bool.or_eq_false_iff, beq_eq_false_iff_ne]
    exact ⟨fun e => hall _ (by simp) (e ▸ hblank), fun e => hall _ (by simp) (e ▸ hblank)⟩
  · rw [hpar] at hd
    exact hp name (RelPath.mem_segments_iff.mpr (Or.inr hd))

/-- A conflict copy of a path that is not hidden is not hidden. -/
theorem not_hides_conflictCopy {path copy : RelPath} {now : DateTime}
    (h : conflictCopy path now = some copy) (hp : hides u path = false) :
    hides u copy = false := by
  obtain ⟨copy', hc, hpar, hname⟩ := conflictCopy_spec path now
  obtain rfl := Option.some.inj (h.symm.trans hc)
  rw [hides_eq_false_iff] at hp ⊢
  intro name hn
  rcases RelPath.mem_segments_iff.mp hn with rfl | hd
  · rw [hname]
    exact isIgnored_conflictName (hp _ (RelPath.mem_segments_iff.mpr (Or.inl rfl)))
  · rw [hpar] at hd
    exact hp name (RelPath.mem_segments_iff.mpr (Or.inr hd))

end Stashden.Sync
