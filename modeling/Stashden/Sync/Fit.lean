import Stashden.Sync.Ignore
import Stashden.Sync.Snapshot

/-!
# Names the local folder cannot hold (`fit.rs`)

`unfit` makes its three passes in source order: names Windows refuses on the server, spellings the
folder cannot tell apart, and whatever stands inside a path already refused. The reasons are the
texts a report shows.

`unfit_inside` is what the rest relies on: a path of either side inside an unfit one is unfit, so
taking the unfit paths away leaves trees (`fit_treeShaped`). `containsKey_unfit` says exactly what is
unfit, `unfit_leaves_fitting` that what is left can be held.
-/

namespace Stashden.Sync

open Lib Stashden.Core RelPath

/-- `Rules`. -/
structure Rules where
  windowsNames : Bool
  foldsCase : Bool
  deriving DecidableEq

/-- `char::is_whitespace`. -/
def isWhitespace (c : Char) : Bool :=
  let n := c.toNat
  (decide (9 ≤ n) && decide (n ≤ 13)) || (decide (0x2000 ≤ n) && decide (n ≤ 0x200a)) ||
    [0x20, 0x85, 0xa0, 0x1680, 0x2028, 0x2029, 0x202f, 0x205f, 0x3000].contains n

/-- `str::trim_end`. -/
def trimEnd (s : Str) : Str := (s.reverse.dropWhile isWhitespace).reverse

/-- `WINDOWS_FORBIDDEN`. -/
def windowsForbidden : List Char := ['<', '>', ':', '"', '|', '?', '*']

/-- `WINDOWS_RESERVED`. -/
def windowsReserved : List Str := ["con".toList, "prn".toList, "aux".toList, "nul".toList]

/-- `reserved_device`. -/
def reservedDevice (stem : Str) : Bool :=
  windowsReserved.contains stem ||
    ["com".toList, "lpt".toList].any fun start =>
      match stem.dropPrefix? start with
      | some [c] => decide ('1' ≤ c) && decide (c ≤ '9')
      | _ => false

variable (u : Unicode)

/-- `windows_holds`. -/
def windowsHolds (name : Str) : Bool :=
  if name.any windowsForbidden.contains || ['.'].isSuffixOf name || [' '].isSuffixOf name then false
  else !reservedDevice (u.lower (trimEnd (name.takeWhile (· ≠ '.'))))

/-- `folded`. -/
def folded (path : RelPath) : Str := u.lower (u.nfc path.str)

/-- `BTreeMap<RelPath, String>`: the unfit paths, each with the reason. -/
abbrev Unfit := OrdMap RelPath Str

/-- `entry(path).or_insert_with(reason)`. -/
def Unfit.orInsert (unfit : Unfit) (path : RelPath) (reason : Str) : Unfit :=
  if unfit.containsKey path then unfit else unfit.insert path reason

/-- The first pass: names on the server Windows refuses. -/
def unfitWindows (remote : List RelPath) (unfit : Unfit) : Unfit :=
  remote.foldl (fun unfit path =>
    match path.segments.find? fun name => !windowsHolds u name with
    | some name =>
      unfit.insert path ("Windows cannot hold a file or folder named \"".toList ++ name ++ ['"'])
    | none => unfit) unfit

/-- `spellings`: the paths of both sides by their folded spelling. -/
def spellings (paths : List RelPath) : OrdMap Str (List RelPath) :=
  paths.foldl (fun m path =>
    m.insert (folded u path) (OrdMap.collect (path :: (m.get (folded u path)).getD []))) OrdMap.empty

/-- The second pass: spellings the folder cannot tell apart. -/
def unfitSpellings (paths : List RelPath) (unfit : Unfit) : Unfit :=
  ((spellings u paths).entries.filter fun e => decide (1 < e.2.length)).foldl (fun unfit e =>
    e.2.foldl (fun unfit path =>
      unfit.orInsert path
        ("this folder cannot tell it apart from ".toList ++
          ", ".toList.intercalate ((e.2.filter (· ≠ path)).map RelPath.str) ++
          ", which differs only in case or accents".toList)) unfit) unfit

/-- The third pass: what stands inside a path already refused. -/
def unfitInside (folders paths : List RelPath) (unfit : Unfit) : Unfit :=
  paths.foldl (fun unfit path =>
    match folders.find? fun folder => path.isInside folder with
    | some folder =>
      unfit.orInsert path
        ("it is inside ".toList ++ folder.str ++ ", which this folder cannot hold".toList)
    | none => unfit) unfit

/-- `unfit`. -/
def unfit (sides : Snapshot × Snapshot) (rules : Rules) : Unfit :=
  let paths := sides.1.keys ++ sides.2.keys
  let refused := if rules.windowsNames then unfitWindows u sides.2.keys OrdMap.empty
    else OrdMap.empty
  let refused := if rules.foldsCase then unfitSpellings u paths refused else refused
  unfitInside refused.keys paths refused

/-! ## What stands inside an unfit path -/

theorem Unfit.containsKey_orInsert (m : Unfit) (p : RelPath) (reason : Str) (q : RelPath) :
    (m.orInsert p reason).containsKey q = true ↔ q = p ∨ m.containsKey q = true := by
  unfold orInsert
  split_ifs with h
  · exact ⟨Or.inr, fun hq => hq.elim (fun e => e ▸ h) id⟩
  · unfold OrdMap.containsKey
    rw [OrdMap.get_insert]
    by_cases hq : q = p <;> simp [hq]

/-- The third pass adds exactly the paths inside a folder, and drops none. -/
theorem containsKey_unfitInside (folders paths : List RelPath) (m : Unfit) (q : RelPath) :
    (unfitInside folders paths m).containsKey q = true ↔
      m.containsKey q = true ∨ (q ∈ paths ∧ ∃ f ∈ folders, q.isInside f = true) := by
  unfold unfitInside
  induction paths generalizing m with
  | nil => simp
  | cons p paths ih =>
    rw [List.foldl_cons, ih]
    cases hf : folders.find? fun f => p.isInside f with
    | none =>
      have hno : ∀ f ∈ folders, p.isInside f = false := by simpa using List.find?_eq_none.mp hf
      simp only [List.mem_cons]
      constructor
      · exact fun h => h.imp_right fun ⟨hq, hin⟩ => ⟨Or.inr hq, hin⟩
      · rintro (h | ⟨rfl | hq, f, hf', hin⟩)
        · exact Or.inl h
        · exact absurd hin (by simp [hno f hf'])
        · exact Or.inr ⟨hq, f, hf', hin⟩
    | some f =>
      have hin : p.isInside f = true := by simpa using List.find?_some hf
      simp only [Unfit.containsKey_orInsert, List.mem_cons]
      constructor
      · rintro ((rfl | h) | ⟨hq, h⟩)
        · exact Or.inr ⟨Or.inl rfl, f, List.mem_of_find?_eq_some hf, hin⟩
        · exact Or.inl h
        · exact Or.inr ⟨Or.inr hq, h⟩
      · rintro (h | ⟨rfl | hq, h⟩)
        · exact Or.inl (Or.inr h)
        · exact Or.inl (Or.inl rfl)
        · exact Or.inr ⟨hq, h⟩

/-- **A path of either side inside an unfit one is unfit.** -/
theorem unfit_inside {sides : Snapshot × Snapshot} {rules : Rules} {p d : RelPath}
    (hp : p ∈ sides.1.keys ++ sides.2.keys) (hin : p.isInside d = true)
    (hd : (unfit u sides rules).containsKey d = true) :
    (unfit u sides rules).containsKey p = true := by
  unfold unfit at hd ⊢
  simp only [containsKey_unfitInside] at hd ⊢
  rcases hd with hd | ⟨-, f, hf, hdf⟩
  · exact Or.inr ⟨hp, d, OrdMap.mem_keys_iff.mpr (OrdMap.containsKey_iff.mp hd), hin⟩
  · exact Or.inr ⟨hp, f, hf, isInside_trans hin hdf⟩

/-- Without rules nothing is unfit. -/
theorem unfit_of_no_rules (sides : Snapshot × Snapshot) (p : RelPath) :
    (unfit u sides ⟨false, false⟩).containsKey p = false := by
  rw [← Bool.not_eq_true]
  unfold unfit
  simp only [Bool.false_eq_true, if_false, containsKey_unfitInside]
  rintro (h | ⟨-, f, hf, -⟩)
  · exact absurd h (by simp [OrdMap.containsKey])
  · exact absurd hf List.not_mem_nil

variable {u}

/-- Taking the unfit paths away keeps the shape of a side. -/
theorem fit_treeShaped {sides : Snapshot × Snapshot} {rules : Rules} {m : Snapshot}
    (h : m.TreeShaped) (hm : m = sides.1 ∨ m = sides.2) :
    Snapshot.TreeShaped (m.retain fun path => !(unfit u sides rules).containsKey path) := by
  refine h.retain fun p d e hp hkeep hd => ?_
  have hmem : p ∈ sides.1.keys ++ sides.2.keys := by
    refine List.mem_append.mpr ?_
    rcases hm with rfl | rfl
    · exact Or.inl (OrdMap.mem_keys_iff.mpr ⟨e, hp⟩)
    · exact Or.inr (OrdMap.mem_keys_iff.mpr ⟨e, hp⟩)
  cases hc : (unfit u sides rules).containsKey d with
  | false => rfl
  | true =>
    rw [unfit_inside u hmem (isInside_of_parent hd) hc] at hkeep
    exact absurd hkeep (by simp)

/-! ## What is left can be held -/

section Holds

variable (u)

/-- What the first pass adds: the names Windows refuses. -/
theorem containsKey_unfitWindows (remote : List RelPath) (m : Unfit) (q : RelPath) :
    (unfitWindows u remote m).containsKey q = true ↔
      m.containsKey q = true ∨
        (q ∈ remote ∧ ∃ name ∈ q.segments, windowsHolds u name = false) := by
  unfold unfitWindows
  induction remote generalizing m with
  | nil => simp
  | cons p remote ih =>
    rw [List.foldl_cons, ih]
    cases hf : p.segments.find? fun name => !windowsHolds u name with
    | none =>
      have hall : ∀ name ∈ p.segments, windowsHolds u name = true := by
        simpa using List.find?_eq_none.mp hf
      refine or_congr_right ⟨fun ⟨hq, hname⟩ => ⟨List.mem_cons_of_mem p hq, hname⟩, ?_⟩
      rintro ⟨hq, name, hname, hno⟩
      rcases List.mem_cons.mp hq with rfl | hq
      · rw [hall name hname] at hno
        cases hno
      · exact ⟨hq, name, hname, hno⟩
    | some name =>
      have hno : windowsHolds u name = false := by simpa using List.find?_some hf
      have hmem := List.mem_of_find?_eq_some hf
      have hins : ∀ reason : Str, (m.insert p reason).containsKey q = true ↔
          q = p ∨ m.containsKey q = true := by
        intro reason
        unfold OrdMap.containsKey
        rw [OrdMap.get_insert]
        by_cases hq : q = p <;> simp [hq]
      simp only [hins, List.mem_cons]
      constructor
      · rintro ((rfl | h) | ⟨hq, h⟩)
        · exact Or.inr ⟨Or.inl rfl, name, hmem, hno⟩
        · exact Or.inl h
        · exact Or.inr ⟨Or.inr hq, h⟩
      · rintro (h | ⟨rfl | hq, h⟩)
        · exact Or.inl (Or.inr h)
        · exact Or.inl (Or.inl rfl)
        · exact Or.inr ⟨hq, h⟩

/-- Under a spelling stand the paths that fold to it, each once. -/
theorem get_spellings (paths : List RelPath) (spelling : Str) (clashing : List RelPath)
    (h : (spellings u paths).get spelling = some clashing) :
    clashing.Nodup ∧ ∀ p, p ∈ clashing ↔ p ∈ paths ∧ folded u p = spelling := by
  have hgrow : ∀ (paths : List RelPath) (m : OrdMap Str (List RelPath)),
      (∀ s l, m.get s = some l → l.Nodup) →
      ∀ s l, (paths.foldl (fun m path => m.insert (folded u path)
        (OrdMap.collect (path :: (m.get (folded u path)).getD []))) m).get s = some l →
        l.Nodup ∧ ∀ p, p ∈ l ↔ p ∈ (m.get s).getD [] ∨ p ∈ paths ∧ folded u p = s := by
    intro paths
    induction paths with
    | nil =>
      intro m hm s l hl
      rw [List.foldl_nil] at hl
      exact ⟨hm s l hl, fun p => by simp [hl]⟩
    | cons path paths ih =>
      intro m hm s l hl
      rw [List.foldl_cons] at hl
      obtain ⟨hnodup, hmem⟩ := ih _ (fun s' l' hl' => by
        rw [OrdMap.get_insert] at hl'
        split_ifs at hl'
        · rw [← Option.some.inj hl']
          exact OrdMap.collect_nodup _
        · exact hm s' l' hl') s l hl
      refine ⟨hnodup, fun p => ?_⟩
      rw [hmem, OrdMap.get_insert]
      by_cases hs : s = folded u path
      · subst hs
        rw [if_pos rfl, Option.getD_some, OrdMap.mem_collect, List.mem_cons, List.mem_cons]
        constructor
        · rintro ((rfl | h) | ⟨h, hf⟩)
          · exact Or.inr ⟨Or.inl rfl, rfl⟩
          · exact Or.inl h
          · exact Or.inr ⟨Or.inr h, hf⟩
        · rintro (h | ⟨rfl | h, hf⟩)
          · exact Or.inl (Or.inr h)
          · exact Or.inl (Or.inl rfl)
          · exact Or.inr ⟨h, hf⟩
      · rw [if_neg hs, List.mem_cons]
        refine or_congr_right (and_congr_left fun hf => ⟨Or.inr, fun h => ?_⟩)
        rcases h with rfl | h
        · exact absurd hf.symm hs
        · exact h
  obtain ⟨hnodup, hmem⟩ := hgrow paths OrdMap.empty (fun s l hl => by simp at hl) _ _ h
  refine ⟨hnodup, fun p => ?_⟩
  rw [hmem]
  simp

theorem spellings_isSome (paths : List RelPath) {p : RelPath} (hp : p ∈ paths) :
    ∃ clashing, (spellings u paths).get (folded u p) = some clashing := by
  rw [← Option.isSome_iff_exists]
  have hgrow : ∀ (paths : List RelPath) (m : OrdMap Str (List RelPath)),
      p ∈ paths ∨ (m.get (folded u p)).isSome = true →
      ((paths.foldl (fun m path => m.insert (folded u path)
        (OrdMap.collect (path :: (m.get (folded u path)).getD []))) m).get
          (folded u p)).isSome = true := by
    intro paths
    induction paths with
    | nil => exact fun m h => h.resolve_left List.not_mem_nil
    | cons path paths ih =>
      intro m h
      rw [List.foldl_cons]
      refine ih _ ?_
      rw [OrdMap.get_insert]
      by_cases hs : folded u p = folded u path
      · rw [if_pos hs]
        exact Or.inr rfl
      · rw [if_neg hs]
        refine h.imp_left fun h => (List.mem_cons.mp h).resolve_left ?_
        rintro rfl
        exact hs rfl
  exact hgrow paths _ (Or.inl hp)

theorem containsKey_foldl_orInsert (reason : RelPath → Str) (paths : List RelPath) (m : Unfit)
    (q : RelPath) :
    (paths.foldl (fun unfit path => unfit.orInsert path (reason path)) m).containsKey q = true ↔
      q ∈ paths ∨ m.containsKey q = true := by
  induction paths generalizing m with
  | nil => simp
  | cons p paths ih =>
    rw [List.foldl_cons, ih, Unfit.containsKey_orInsert, List.mem_cons]
    tauto

/-- What the second pass adds: the paths another path folds to the same as. -/
theorem containsKey_unfitSpellings (paths : List RelPath) (m : Unfit) (q : RelPath) :
    (unfitSpellings u paths m).containsKey q = true ↔
      m.containsKey q = true ∨
        (q ∈ paths ∧ ∃ p ∈ paths, p ≠ q ∧ folded u p = folded u q) := by
  have hfold : ∀ (groups : List (Str × List RelPath)) (m : Unfit),
      (groups.foldl (fun unfit e => e.2.foldl (fun unfit path => unfit.orInsert path
        ("this folder cannot tell it apart from ".toList ++
          ", ".toList.intercalate ((e.2.filter (· ≠ path)).map RelPath.str) ++
          ", which differs only in case or accents".toList)) unfit) m).containsKey q = true ↔
        m.containsKey q = true ∨ ∃ e ∈ groups, q ∈ e.2 := by
    intro groups
    induction groups with
    | nil => simp
    | cons e groups ih =>
      intro m
      rw [List.foldl_cons, ih, containsKey_foldl_orInsert (fun path =>
        "this folder cannot tell it apart from ".toList ++
          ", ".toList.intercalate ((e.2.filter (· ≠ path)).map RelPath.str) ++
          ", which differs only in case or accents".toList)]
      simp only [List.mem_cons, exists_eq_or_imp]
      tauto
  unfold unfitSpellings
  rw [hfold]
  refine or_congr_right ⟨?_, ?_⟩
  · rintro ⟨⟨spelling, clashing⟩, he, hq⟩
    obtain ⟨hentry, hlong⟩ := List.mem_filter.mp he
    obtain ⟨hnodup, hmem⟩ :=
      get_spellings u paths spelling clashing (OrdMap.get_eq_some_iff.mpr hentry)
    have hother : ∃ p ∈ clashing, p ≠ q := by
      by_contra hall
      push Not at hall
      have hsub : clashing ⊆ [q] := fun x hx => List.mem_singleton.mpr (hall x hx)
      have hlen := (hnodup.subperm hsub).length_le
      have hmore : 1 < clashing.length := of_decide_eq_true hlong
      rw [List.length_singleton] at hlen
      omega
    obtain ⟨p, hp, hne⟩ := hother
    obtain ⟨hqin, hqf⟩ := (hmem q).mp hq
    obtain ⟨hpin, hpf⟩ := (hmem p).mp hp
    exact ⟨hqin, p, hpin, hne, hpf.trans hqf.symm⟩
  · rintro ⟨hqin, p, hpin, hne, hf⟩
    obtain ⟨clashing, hget⟩ := spellings_isSome u paths hqin
    obtain ⟨hnodup, hmem⟩ := get_spellings u paths _ clashing hget
    have hq : q ∈ clashing := (hmem q).mpr ⟨hqin, rfl⟩
    have hp : p ∈ clashing := (hmem p).mpr ⟨hpin, hf⟩
    refine ⟨(folded u q, clashing), List.mem_filter.mpr ⟨OrdMap.get_eq_some_iff.mp hget, ?_⟩, hq⟩
    have hsub : [p, q].Subperm clashing := by
      refine List.Nodup.subperm (by simp [hne]) fun x hx => ?_
      rcases List.mem_cons.mp hx with rfl | hx
      · exact hp
      · rw [List.mem_singleton.mp hx]
        exact hq
    exact decide_eq_true hsub.length_le

/-- A path refused for itself: a segment Windows cannot hold, or another path's spelling. -/
def Refused (sides : Snapshot × Snapshot) (rules : Rules) (p : RelPath) : Prop :=
  (rules.windowsNames = true ∧ p ∈ sides.2.keys ∧
      ∃ name ∈ p.segments, windowsHolds u name = false) ∨
    rules.foldsCase = true ∧ p ∈ sides.1.keys ++ sides.2.keys ∧
      ∃ q ∈ sides.1.keys ++ sides.2.keys, q ≠ p ∧ folded u q = folded u p

/-- **What is unfit**: a path refused for itself, and what stands inside one. -/
theorem containsKey_unfit (sides : Snapshot × Snapshot) (rules : Rules) (p : RelPath) :
    (unfit u sides rules).containsKey p = true ↔
      Refused u sides rules p ∨ p ∈ sides.1.keys ++ sides.2.keys ∧
        ∃ d, Refused u sides rules d ∧ p.isInside d = true := by
  have hrefused : ∀ q, (if rules.foldsCase = true then
      unfitSpellings u (sides.1.keys ++ sides.2.keys) (if rules.windowsNames = true then
        unfitWindows u sides.2.keys OrdMap.empty else OrdMap.empty)
      else if rules.windowsNames = true then unfitWindows u sides.2.keys OrdMap.empty
        else OrdMap.empty : Unfit).containsKey q = true ↔ Refused u sides rules q := by
    intro q
    have hempty : (OrdMap.empty : Unfit).containsKey q = false := rfl
    unfold Refused
    split_ifs with hcase hwin hwin
    · simp [containsKey_unfitSpellings, containsKey_unfitWindows, hempty, hcase, hwin]
    · simp [containsKey_unfitSpellings, hempty, hcase, hwin]
    · simp [containsKey_unfitWindows, hempty, hcase, hwin]
    · simp [hempty, hcase, hwin]
  unfold unfit
  simp only [containsKey_unfitInside, OrdMap.mem_keys_iff]
  refine or_congr (hrefused p) (and_congr_right fun _ => exists_congr fun d =>
    and_congr_left fun _ => ?_)
  rw [← OrdMap.containsKey_iff]
  exact hrefused d

/-- A side without the unfit paths. -/
def fitting (sides : Snapshot × Snapshot) (rules : Rules) (m : Snapshot) : Snapshot :=
  m.retain fun path => !(unfit u sides rules).containsKey path

theorem mem_fitting {sides : Snapshot × Snapshot} {rules : Rules} {m : Snapshot} {p : RelPath} :
    p ∈ (fitting u sides rules m).keys ↔
      p ∈ m.keys ∧ (unfit u sides rules).containsKey p = false := by
  unfold fitting
  simp only [OrdMap.mem_keys_iff, OrdMap.get_retain]
  cases (unfit u sides rules).containsKey p <;> simp

/-- The paths left of both sides. -/
def Fits (sides : Snapshot × Snapshot) (rules : Rules) (p : RelPath) : Prop :=
  p ∈ (fitting u sides rules sides.1).keys ∨ p ∈ (fitting u sides rules sides.2).keys

theorem fits_iff {sides : Snapshot × Snapshot} {rules : Rules} {p : RelPath} :
    Fits u sides rules p ↔
      p ∈ sides.1.keys ++ sides.2.keys ∧ (unfit u sides rules).containsKey p = false := by
  unfold Fits
  rw [mem_fitting, mem_fitting, List.mem_append]
  tauto

/-- **What is left can be held**, and nothing is dropped without cause. -/
theorem unfit_leaves_fitting (sides : Snapshot × Snapshot) (rules : Rules) :
    (∀ p d, Fits u sides rules p → p.isInside d = true → d ∈ sides.1.keys ++ sides.2.keys →
      Fits u sides rules d) ∧
    (rules.foldsCase = true → ∀ p q, Fits u sides rules p → Fits u sides rules q →
      folded u p = folded u q → p = q) ∧
    (rules.windowsNames = true → ∀ p ∈ (fitting u sides rules sides.2).keys, ∀ name ∈ p.segments,
      windowsHolds u name = true) ∧
    ∀ p, (unfit u sides rules).containsKey p = true → p ∈ sides.1.keys ++ sides.2.keys ∧
      (Refused u sides rules p ∨ ∃ d, Refused u sides rules d ∧ p.isInside d = true) := by
  refine ⟨fun p d hp hin hd => ?_, fun hcase p q hp hq hf => ?_, fun hwin p hp name hname => ?_,
    fun p hp => ?_⟩
  · obtain ⟨hmem, hkept⟩ := (fits_iff u).mp hp
    refine (fits_iff u).mpr ⟨hd, ?_⟩
    by_contra hno
    rw [unfit_inside u hmem hin (by simpa using hno)] at hkept
    cases hkept
  · obtain ⟨hpin, hkept⟩ := (fits_iff u).mp hp
    obtain ⟨hqin, -⟩ := (fits_iff u).mp hq
    by_contra hne
    rw [(containsKey_unfit u sides rules p).mpr (Or.inl (Or.inr
      ⟨hcase, hpin, q, hqin, fun h => hne h.symm, hf.symm⟩))] at hkept
    cases hkept
  · obtain ⟨hmem, hkept⟩ := (mem_fitting u).mp hp
    by_contra hno
    rw [(containsKey_unfit u sides rules p).mpr (Or.inl (Or.inl
      ⟨hwin, hmem, name, hname, by simpa using hno⟩))] at hkept
    cases hkept
  · rcases (containsKey_unfit u sides rules p).mp hp with hself | ⟨hmem, hinside⟩
    · refine ⟨?_, Or.inl hself⟩
      rcases hself with ⟨-, hmem, -⟩ | ⟨-, hmem, -⟩
      · exact List.mem_append_right _ hmem
      · exact hmem
    · exact ⟨hmem, Or.inr hinside⟩

end Holds

end Stashden.Sync
