import Stashden.Sync.Ignore
import Stashden.Sync.State

/-!
# The local walk (`local.rs`)

`walk` goes through a directory as the source does: a name is looked at before what it names, a
directory is reported and then walked. What it reports, in order, is a list of `Found`, which `scan`
puts into the `LocalScan`.

A `Listing` is a directory as `read_dir` shows it, so it also holds what the walk steps over: ignored
names and state files, links, special files, and names that are no text. `mem_walk_iff` says which
entries are reported, for a path of any depth: those with a visible name on every level.
-/

namespace Stashden.Sync

open Lib Stashden.Core RelPath

/-- `DirEntry::file_name`: text, or bytes that are no text with their lossy form. -/
inductive OsName where
  | text (name : Str)
  | bytes (lossy : Str)
  deriving DecidableEq

mutual

/-- What stands under a name: a file with its content's tag, its size and modification time. -/
inductive Item where
  | file (tag : Str) (size : Nat) (mtimeMs : Option Int)
  | directory (inside : Listing)
  | symlink
  | special

/-- A directory, name by name. -/
inductive Listing where
  | nil
  | cons (name : OsName) (item : Item) (rest : Listing)

end

/-- What the walk reports of an entry. -/
inductive Found where
  | entry (path : RelPath) (scanned : Scanned)
  | skipped (path : Str)

section Walk

variable (u : Unicode) (cache : SyncState)

/-- `fingerprint`: the recorded entry where size and modification time are those recorded. -/
def fingerprint (path : RelPath) (tag : Str) (size : Nat) (mtimeMs : Option Int) : Scanned :=
  match cache.tracked.get path, mtimeMs with
  | some ⟨.file known knownSize, recorded⟩, some mtime =>
    if recorded = some mtime ∧ knownSize = size then ⟨.file known knownSize, some mtime⟩
    else ⟨.file tag size, mtimeMs⟩
  | _, _ => ⟨.file tag size, mtimeMs⟩

/-- The path of a name in a directory, the root being none. -/
def joined (directory : Option RelPath) (name : Str) : Except InvalidRelPath RelPath :=
  match directory with
  | some parent => parent.child name
  | none => RelPath.parse name

/-- `entry.path()`, below the root. -/
def shown (directory : Option RelPath) (name : Str) : Str :=
  match directory with
  | some parent => parent.str ++ '/' :: name
  | none => name

/-- What the walk does with a name before it looks at what it names. -/
def named (directory : Option RelPath) (name : OsName) (look : RelPath → List Found) : List Found :=
  match name with
  | .bytes lossy => [.skipped (shown directory lossy)]
  | .text name =>
    if isStateFile name || isIgnored u name then []
    else
      match joined directory name with
      | .error _ => [.skipped (shown directory name)]
      | .ok path => look path

mutual

/-- One turn of the loop of `walk`. -/
def visit (directory : Option RelPath) (name : OsName) : Item → List Found
  | .symlink => named u directory name fun path => [.skipped path.str]
  | .special => named u directory name fun path => [.skipped path.str]
  | .file tag size mtimeMs =>
    named u directory name fun path => [.entry path (fingerprint cache path tag size mtimeMs)]
  | .directory inside =>
    named u directory name fun path =>
      .entry path ⟨.directory, none⟩ :: walk (some path) inside

/-- `walk`. -/
def walk (directory : Option RelPath) : Listing → List Found
  | .nil => []
  | .cons name item rest => visit directory name item ++ walk directory rest

end

/-- What a report adds to the scan. -/
def LocalScan.add (scan : LocalScan) : Found → LocalScan
  | .entry path scanned => { scan with entries := scan.entries.insert path scanned }
  | .skipped path => { scan with skipped := scan.skipped ++ [path] }

/-- `scan`. -/
def scanOf (root : Listing) : LocalScan :=
  (walk u cache none root).foldl LocalScan.add ⟨OrdMap.empty, []⟩

end Walk

/-! ## What stands at a path -/

/-- What a directory holds under a name. -/
def Listing.get (name : Str) : Listing → Option Item
  | .nil => none
  | .cons (.text other) item rest => if other = name then some item else rest.get name
  | .cons (.bytes _) _ rest => rest.get name

/-- What stands at a path, segment by segment. -/
def Listing.find (root : Listing) : List Str → Option Item
  | [] => none
  | [name] => root.get name
  | name :: rest =>
    match root.get name with
    | some (.directory inside) => inside.find rest
    | _ => none

mutual

/-- Names are those a file system gives out: not empty, without separator, each once. -/
def Item.wellFormed : Item → Bool
  | .directory inside => inside.wellFormed
  | _ => true

def Listing.wellFormed : Listing → Bool
  | .nil => true
  | .cons (.bytes _) item rest => item.wellFormed && rest.wellFormed
  | .cons (.text name) item rest =>
    decide (name ≠ []) && decide ('/' ∉ name) && (rest.get name).isNone && item.wellFormed &&
      rest.wellFormed

end

/-- What the walk reports of an item at a path. -/
def Item.found (cache : SyncState) (path : RelPath) : Item → Found
  | .file tag size mtimeMs => .entry path (fingerprint cache path tag size mtimeMs)
  | .directory _ => .entry path ⟨.directory, none⟩
  | .symlink | .special => .skipped path.str

/-- What stands in the scan for an item at a path. -/
def Item.scanned (cache : SyncState) (path : RelPath) (item : Item) : Option Scanned :=
  match item.found cache path with
  | .entry _ scanned => some scanned
  | .skipped _ => none

/-- What stands below an item, the item itself at no segment. -/
def Item.under (segments : List Str) (item : Item) : Option Item :=
  match segments, item with
  | [], item => some item
  | segments, .directory inside => inside.find segments
  | _, _ => none

theorem Listing.find_cons {root : Listing} {name : Str} {rest : List Str} :
    root.find (name :: rest) = (root.get name).bind fun item => item.under rest := by
  cases rest with
  | nil => rw [find]; cases root.get name <;> rfl
  | cons next rest =>
    show (match root.get name with
      | some (.directory inside) => inside.find (next :: rest)
      | _ => none) = _
    rcases root.get name with _ | (_ | _ | _ | _) <;> rfl

/-! ## Paths -/

/-- The segments of a directory, the root having none. -/
def levels : Option RelPath → List Str
  | some d => d.segments
  | none => []

theorem mapM_fromStr_ok {l : List Str} {names : List NodeName}
    (h : l.mapM NodeName.fromStr = .ok names) : names.map NodeName.str = l := by
  induction l generalizing names with
  | nil =>
    cases h
    rfl
  | cons s l ih =>
    rw [List.mapM_cons] at h
    cases hs : NodeName.fromStr s with
    | error e => rw [hs] at h; cases h
    | ok n =>
      rw [hs] at h
      cases hl : l.mapM NodeName.fromStr with
      | error e => rw [hl] at h; cases h
      | ok ns =>
        rw [hl] at h
        cases h
        rw [List.map_cons, ih hl, NodeName.fromStr_eq_ok hs]

theorem segments_ne_nil (p : RelPath) : ∀ s ∈ p.segments, s ≠ [] := fun s hs =>
  NodeName.ne_nil (p.valid s hs)

/-- A string without an empty segment parses into the path with its segments. -/
theorem parse_ok {input : Str} {p : RelPath} (hne : ∀ s ∈ input.splitOn '/', s ≠ [])
    (h : RelPath.parse input = .ok p) : p.segments = input.splitOn '/' := by
  unfold RelPath.parse parsePath at h
  rw [List.filter_eq_self.mpr fun s hs => by simpa using hne s hs] at h
  split at h
  · cases h
  · cases h
  · rename_i n names hnames
    cases h
    unfold RelPath.segments
    rw [splitOn_intercalate_names (List.cons_ne_nil n names), mapM_fromStr_ok hnames]

/-- **The path of a name in a directory** has that name as its last segment; a name that is none has
no path. -/
theorem joined_ok_iff {directory : Option RelPath} {name : Str} (hne : name ≠ []) (hs : '/' ∉ name)
    {p : RelPath} : joined directory name = .ok p ↔ p.segments = levels directory ++ [name] := by
  have hsplit : ∀ d : RelPath, (d.str ++ '/' :: name).splitOn '/' = d.segments ++ [name] := by
    intro d
    rw [splitOn_append_slash, splitOn_of_not_mem hs]
    rfl
  have hback : ∀ input : Str, input.splitOn '/' = p.segments → RelPath.parse input = .ok p := by
    intro input hin
    have hstr : input = p.str := by
      have hjoin : ['/'].intercalate (input.splitOn '/') = input := List.intercalate_splitOn '/'
      rw [← hjoin, hin]
      exact List.intercalate_splitOn '/'
    subst hstr
    exact parse_of_valid p.valid
  cases directory with
  | none =>
    have hroot : name.splitOn '/' = [name] := splitOn_of_not_mem hs
    constructor
    · intro h
      rw [parse_ok (by rw [hroot]; simpa using hne) h, hroot]
      rfl
    · intro h
      exact hback name (by rw [hroot, h]; rfl)
  | some d =>
    constructor
    · intro h
      have hall : ∀ s ∈ (d.str ++ '/' :: name).splitOn '/', s ≠ [] := by
        rw [hsplit d]
        intro s hmem
        rcases List.mem_append.mp hmem with hmem | hmem
        · exact segments_ne_nil d s hmem
        · rw [List.mem_singleton.mp hmem]
          exact hne
      rw [parse_ok hall h, hsplit d]
      rfl
    · intro h
      exact hback _ (by rw [hsplit d, h]; rfl)

/-! ## What is reported -/

variable {u : Unicode} {cache : SyncState} {directory : Option RelPath} {p : RelPath}
  {scanned : Scanned}

/-- A name the walk looks behind. -/
def Shown (u : Unicode) (name : Str) : Prop := isIgnored u name = false ∧ isStateFile name = false

theorem mem_named {name : Str} {look : RelPath → List Found} {x : Found} (hne : name ≠ [])
    (hs : '/' ∉ name) (hshown : Shown u name) {q : RelPath}
    (hq : q.segments = levels directory ++ [name]) (h : x ∈ look q) :
    x ∈ named u directory (.text name) look := by
  unfold named
  simp only [hshown.1, hshown.2, Bool.or_self, Bool.false_eq_true, if_false,
    (joined_ok_iff hne hs).mpr hq]
  exact h

/-- An entry reported for a name was reported for its path. -/
theorem of_mem_named {name : OsName} {look : RelPath → List Found}
    (hname : ∀ text, name = .text text → text ≠ [] ∧ '/' ∉ text)
    (h : Found.entry p scanned ∈ named u directory name look) :
    ∃ text, name = .text text ∧ Shown u text ∧
      ∃ q, q.segments = levels directory ++ [text] ∧ Found.entry p scanned ∈ look q := by
  cases name with
  | bytes lossy => simp [named] at h
  | text text =>
    obtain ⟨hne, hs⟩ := hname text rfl
    unfold named at h
    simp only at h
    split_ifs at h with hskip
    · exact absurd h List.not_mem_nil
    · have hshown : isIgnored u text = false ∧ isStateFile text = false := by
        simpa [and_comm] using hskip
      cases hj : joined directory text with
      | error e =>
        rw [hj] at h
        simp at h
      | ok path =>
        rw [hj] at h
        exact ⟨text, rfl, hshown, path, (joined_ok_iff hne hs).mp hj, h⟩

theorem segments_injective : Function.Injective RelPath.segments := by
  intro a b h
  refine RelPath.str_injective ?_
  have hjoin : ∀ s : Str, ['/'].intercalate (s.splitOn '/') = s := fun s =>
    List.intercalate_splitOn '/'
  rw [← hjoin a.str, ← hjoin b.str]
  exact congrArg _ h

/-- A name that is one has a path in every directory. -/
theorem exists_joined (directory : Option RelPath) {name : Str} (h : NodeName.check name = none) :
    ∃ q : RelPath, q.segments = levels directory ++ [name] := by
  have hs : name.splitOn '/' = [name] := splitOn_of_not_mem (NodeName.slash_not_mem h)
  cases directory with
  | none => exact ⟨⟨name, validPath_of_name h⟩, hs⟩
  | some d =>
    refine ⟨⟨d.str ++ '/' :: name, validPath_append.mpr ⟨d.valid, validPath_of_name h⟩⟩, ?_⟩
    show (d.str ++ '/' :: name).splitOn '/' = _
    rw [splitOn_append_slash, hs]
    rfl

/-- What an item that is no directory has below it is itself. -/
theorem Item.under_leaf {item found : Item} {rest : List Str}
    (hleaf : ∀ inside, item ≠ .directory inside) (h : item.under rest = some found) :
    rest = [] ∧ item = found := by
  cases rest with
  | nil => exact ⟨rfl, Option.some.inj h⟩
  | cons next rest =>
    cases item with
    | directory inside => exact absurd rfl (hleaf inside)
    | file tag size mtimeMs => cases h
    | symlink => cases h
    | special => cases h

theorem forall_text {name : OsName} {item : Item} {rest : Listing}
    (h : (Listing.cons name item rest).wellFormed = true) :
    (∀ text, name = .text text → (text ≠ [] ∧ '/' ∉ text) ∧ rest.get text = none) ∧
      item.wellFormed = true ∧ rest.wellFormed = true := by
  cases name with
  | bytes lossy =>
    rw [Listing.wellFormed, Bool.and_eq_true] at h
    exact ⟨fun text he => (by cases he), h⟩
  | text name =>
    simp only [Listing.wellFormed, Bool.and_eq_true, decide_eq_true_eq, Option.isNone_iff_eq_none]
      at h
    obtain ⟨⟨⟨hname, hfree⟩, hitem⟩, hrest⟩ := h
    exact ⟨fun text he => (by cases he; exact ⟨hname, hfree⟩), hitem, hrest⟩

mutual

/-- What stands below visible names is reported. -/
theorem found_of_visit {name : Str} (hne : name ≠ []) (hs : '/' ∉ name) :
    ∀ (item : Item) (directory : Option RelPath) {rest : List Str} {found : Item},
      item.wellFormed = true → p.segments = levels directory ++ name :: rest →
      (∀ s ∈ name :: rest, Shown u s) → item.under rest = some found →
        found.found cache p ∈ visit u cache directory (.text name) item
  | .symlink, directory, rest, found, _, hp, hshown, hf => by
    obtain ⟨rfl, rfl⟩ := Item.under_leaf (fun _ => by simp) hf
    exact mem_named hne hs (hshown name List.mem_cons_self) hp (List.mem_singleton_self _)
  | .special, directory, rest, found, _, hp, hshown, hf => by
    obtain ⟨rfl, rfl⟩ := Item.under_leaf (fun _ => by simp) hf
    exact mem_named hne hs (hshown name List.mem_cons_self) hp (List.mem_singleton_self _)
  | .file tag size mtimeMs, directory, rest, found, _, hp, hshown, hf => by
    obtain ⟨rfl, rfl⟩ := Item.under_leaf (fun _ => by simp) hf
    exact mem_named hne hs (hshown name List.mem_cons_self) hp (List.mem_singleton_self _)
  | .directory inside, directory, rest, found, h, hp, hshown, hf => by
    obtain ⟨hname, hall⟩ := List.forall_mem_cons.mp hshown
    have hcheck : NodeName.check name = none := p.valid name (by
      show name ∈ p.segments
      rw [hp]
      simp)
    obtain ⟨q, hq⟩ := exists_joined directory hcheck
    refine mem_named hne hs hname hq ?_
    cases rest with
    | nil =>
      obtain rfl := segments_injective (hp.trans hq.symm)
      cases hf
      exact List.mem_cons_self
    | cons next rest =>
      refine List.mem_cons_of_mem _ (found_of_walk inside (some q) h ?_ hall hf)
      show p.segments = q.segments ++ _
      rw [hp, hq, List.append_assoc, List.singleton_append]

theorem found_of_walk : ∀ (root : Listing) (directory : Option RelPath) {segments : List Str}
    {found : Item}, root.wellFormed = true → p.segments = levels directory ++ segments →
    (∀ s ∈ segments, Shown u s) → root.find segments = some found →
      found.found cache p ∈ walk u cache directory root
  | root, directory, [], found, _, _, _, hf => by cases root <;> cases hf
  | .nil, directory, name :: segments, found, _, _, _, hf => by
    rw [Listing.find_cons] at hf
    cases hf
  | .cons (.bytes lossy) item rest, directory, name :: segments, found, h, hp, hshown, hf => by
    rw [Listing.find_cons] at hf
    exact List.mem_append_right _ (found_of_walk rest directory (forall_text h).2.2 hp hshown
      (by rw [Listing.find_cons]; exact hf))
  | .cons (.text other) item rest, directory, name :: segments, found, h, hp, hshown, hf => by
    obtain ⟨hname, hitem, hrest⟩ := forall_text h
    obtain ⟨⟨hne, hs⟩, -⟩ := hname other rfl
    rw [Listing.find_cons, Listing.get] at hf
    split_ifs at hf with hother
    · subst hother
      exact List.mem_append_left _ (found_of_visit hne hs item directory hitem hp hshown hf)
    · exact List.mem_append_right _ (found_of_walk rest directory hrest hp hshown
        (by rw [Listing.find_cons]; exact hf))

end

mutual

/-- What is reported stands below visible names. -/
theorem find_of_mem_visit : ∀ (item : Item) (name : OsName) (directory : Option RelPath),
    (∀ text, name = .text text → text ≠ [] ∧ '/' ∉ text) → item.wellFormed = true →
    Found.entry p scanned ∈ visit u cache directory name item →
      ∃ text rest, name = .text text ∧ p.segments = levels directory ++ text :: rest ∧
        (∀ s ∈ text :: rest, Shown u s) ∧
        ∃ found, item.under rest = some found ∧ found.scanned cache p = some scanned
  | .symlink, name, directory, hname, _, h => by
    obtain ⟨_, _, _, _, _, hmem⟩ := of_mem_named hname h
    simp at hmem
  | .special, name, directory, hname, _, h => by
    obtain ⟨_, _, _, _, _, hmem⟩ := of_mem_named hname h
    simp at hmem
  | .file tag size mtimeMs, name, directory, hname, _, h => by
    obtain ⟨text, rfl, hshown, q, hq, hmem⟩ := of_mem_named hname h
    obtain ⟨rfl, rfl⟩ : p = q ∧ scanned = fingerprint cache q tag size mtimeMs := by simpa using hmem
    exact ⟨text, [], rfl, hq, by simpa using hshown, _, rfl, rfl⟩
  | .directory inside, name, directory, hname, hwf, h => by
    obtain ⟨text, rfl, hshown, q, hq, hmem⟩ := of_mem_named hname h
    rcases List.mem_cons.mp hmem with he | hmem
    · obtain ⟨rfl, rfl⟩ : p = q ∧ scanned = ⟨.directory, none⟩ := by simpa using he
      exact ⟨text, [], rfl, hq, by simpa using hshown, _, rfl, rfl⟩
    · obtain ⟨segments, hp, hall, found, hf, hsc⟩ := find_of_mem_walk inside (some q) hwf hmem
      refine ⟨text, segments, rfl, ?_, List.forall_mem_cons.mpr ⟨hshown, hall⟩, found, ?_, hsc⟩
      · rw [hp]
        show q.segments ++ segments = _
        rw [hq, List.append_assoc, List.singleton_append]
      · cases segments with
        | nil => cases inside <;> cases hf
        | cons next rest => exact hf

theorem find_of_mem_walk : ∀ (root : Listing) (directory : Option RelPath), root.wellFormed = true →
    Found.entry p scanned ∈ walk u cache directory root →
      ∃ segments, p.segments = levels directory ++ segments ∧ (∀ s ∈ segments, Shown u s) ∧
        ∃ found, root.find segments = some found ∧ found.scanned cache p = some scanned
  | .nil, directory, _, h => absurd h List.not_mem_nil
  | .cons name item rest, directory, h, hmem => by
    obtain ⟨hname, hitem, hrest⟩ := forall_text h
    rw [walk, List.mem_append] at hmem
    rcases hmem with hmem | hmem
    · obtain ⟨text, below, rfl, hp, hshown, found, hf, hsc⟩ :=
        find_of_mem_visit item name directory (fun text he => (hname text he).1) hitem hmem
      refine ⟨text :: below, hp, hshown, found, ?_, hsc⟩
      rw [Listing.find_cons, Listing.get, if_pos rfl]
      exact hf
    · obtain ⟨segments, hp, hshown, found, hf, hsc⟩ := find_of_mem_walk rest directory hrest hmem
      refine ⟨segments, hp, hshown, found, ?_, hsc⟩
      rcases segments with _ | ⟨other, segments⟩
      · cases rest <;> cases hf
      · rw [Listing.find_cons] at hf ⊢
        cases name with
        | bytes lossy => exact hf
        | text text =>
          have hother : text ≠ other := by
            rintro rfl
            rw [(hname text rfl).2] at hf
            cases hf
          rw [Listing.get, if_neg hother]
          exact hf

end

/-! ## The scan -/

theorem get_foldl_add {found : List Found} {scan : LocalScan} :
    (found.foldl LocalScan.add scan).entries.get p = some scanned →
      Found.entry p scanned ∈ found ∨ scan.entries.get p = some scanned := by
  induction found generalizing scan with
  | nil => exact Or.inr
  | cons x found ih =>
    intro h
    rcases ih h with h | h
    · exact Or.inl (List.mem_cons_of_mem x h)
    · cases x with
      | skipped path => exact Or.inr h
      | entry path other =>
        change (scan.entries.insert path other).get p = some scanned at h
        rw [OrdMap.get_insert] at h
        split_ifs at h with hp
        · rw [hp, ← Option.some.inj h]
          exact Or.inl List.mem_cons_self
        · exact Or.inr h

theorem get_foldl_add_isSome {found : List Found} {scan : LocalScan}
    (h : Found.entry p scanned ∈ found ∨ (scan.entries.get p).isSome = true) :
    ((found.foldl LocalScan.add scan).entries.get p).isSome = true := by
  induction found generalizing scan with
  | nil => exact h.resolve_left List.not_mem_nil
  | cons x found ih =>
    refine ih ?_
    rcases h with h | h
    · rcases List.mem_cons.mp h with rfl | h
      · refine Or.inr ?_
        show ((scan.entries.insert p scanned).get p).isSome = true
        rw [OrdMap.get_insert_self]
        rfl
      · exact Or.inl h
    · refine Or.inr ?_
      cases x with
      | skipped path => exact h
      | entry path other =>
        show ((scan.entries.insert path other).get p).isSome = true
        rw [OrdMap.get_insert]
        split_ifs
        · rfl
        · exact h

/-- **What the scan holds at a path**: what stands there, if its names are visible. -/
theorem get_scanOf {root : Listing} (h : root.wellFormed = true) :
    (scanOf u cache root).entries.get p =
      if Visible u p then (root.find p.segments).bind fun item => item.scanned cache p else none := by
  have hmem : ∀ scanned, Found.entry p scanned ∈ walk u cache none root ↔
      Visible u p ∧ ∃ found, root.find p.segments = some found ∧
        found.scanned cache p = some scanned := by
    intro scanned
    constructor
    · intro hfound
      obtain ⟨segments, hp, hshown, found⟩ := find_of_mem_walk root none h hfound
      obtain rfl : p.segments = segments := hp
      exact ⟨hshown, found⟩
    · rintro ⟨hshown, found, hf, hsc⟩
      have hfound : found.found cache p ∈ walk u cache none root :=
        found_of_walk root none h rfl hshown hf
      unfold Item.scanned at hsc
      cases found <;> cases hsc <;> exact hfound
  refine Option.ext fun scanned => ?_
  have hright : (if Visible u p then (root.find p.segments).bind fun item => item.scanned cache p
      else none) = some scanned ↔ Found.entry p scanned ∈ walk u cache none root := by
    rw [hmem]
    split_ifs with hv
    · rw [Option.bind_eq_some_iff]
      exact ⟨fun h => ⟨hv, h⟩, And.right⟩
    · simp [hv]
  rw [hright]
  constructor
  · intro hget
    rcases get_foldl_add hget with hfound | hempty
    · exact hfound
    · cases hempty
  · intro hfound
    have hsome : ((scanOf u cache root).entries.get p).isSome = true :=
      get_foldl_add_isSome (Or.inl hfound)
    obtain ⟨other, hother⟩ := Option.isSome_iff_exists.mp hsome
    have hother' : Found.entry p other ∈ walk u cache none root := by
      rcases get_foldl_add hother with h | h
      · exact h
      · cases h
    obtain ⟨-, item, hitem, hsc⟩ := (hmem scanned).mp hfound
    obtain ⟨-, item', hitem', hsc'⟩ := (hmem other).mp hother'
    obtain rfl := Option.some.inj (hitem.symm.trans hitem')
    exact hother.trans (hsc'.symm.trans hsc)

/-! ## What is on disk -/

/-- The entry an item is for the engine: a link or a special file is none. -/
def Item.entry : Item → Option Entry
  | .file tag size _ => some (.file tag size)
  | .directory _ => some .directory
  | .symlink | .special => none

/-- A folder's entries, as `World` keeps them. -/
def Listing.Stands (root : Listing) (disk : Snapshot) : Prop :=
  ∀ p : RelPath, disk.get p = (root.find p.segments).bind Item.entry

/-- No file changed under the size and modification time it was recorded with. -/
def Listing.CacheTrue (root : Listing) (cache : SyncState) : Prop :=
  ∀ (p : RelPath) tag size mtimeMs, root.find p.segments = some (.file tag size mtimeMs) →
    (fingerprint cache p tag size mtimeMs).entry = .file tag size

/-- **The scan reports the visible part of the folder.** -/
theorem scan_stands {root : Listing} {disk : Snapshot} (h : root.wellFormed = true)
    (hdisk : root.Stands disk) (hcache : root.CacheTrue cache) :
    (scanOf u cache root).snapshot.get p = if Visible u p then disk.get p else none := by
  rw [LocalScan.get_snapshot, get_scanOf h, hdisk p]
  split_ifs
  · rcases hf : root.find p.segments with _ | (⟨tag, size, mtimeMs⟩ | _ | _ | _)
    · rfl
    · exact congrArg some (hcache p tag size mtimeMs hf)
    · rfl
    · rfl
    · rfl
  · rfl

/-- Above what stands there are directories. -/
theorem find_above {root : Listing} {item : Item} {d : RelPath} (hin : p.isInside d = true)
    (hf : root.find p.segments = some item) : ∃ inside, root.find d.segments = some (.directory inside) := by
  obtain ⟨rest, hstr⟩ := isInside_iff.mp hin
  have hsegs : p.segments = d.segments ++ rest.splitOn '/' := by
    unfold segments
    rw [hstr, splitOn_append_slash]
  rw [hsegs] at hf
  have hrest : rest.splitOn '/' ≠ [] := List.splitOn_ne_nil '/' rest
  have hd : d.segments ≠ [] := List.splitOn_ne_nil '/' d.str
  generalize d.segments = above at hf hd ⊢
  generalize rest.splitOn '/' = below at hf hrest
  induction above generalizing root with
  | nil => exact absurd rfl hd
  | cons name above ih =>
    rw [List.cons_append, Listing.find_cons] at hf
    obtain ⟨top, htop, hunder⟩ := Option.bind_eq_some_iff.mp hf
    obtain ⟨next, further, hne⟩ : ∃ next further, above ++ below = next :: further :=
      List.exists_cons_of_ne_nil (by simp [hrest])
    rw [hne] at hunder
    cases top with
    | directory inside =>
      rw [Listing.find_cons, htop]
      cases above with
      | nil => exact ⟨inside, rfl⟩
      | cons other above => exact ih (by simp) (by rw [hne]; exact hunder)
    | file tag size mtimeMs => cases hunder
    | symlink => cases hunder
    | special => cases hunder

/-! ## What is skipped -/

/-- What the walk does not report: a link, or a special file. -/
def Item.unreported : Item → Bool
  | .symlink | .special => true
  | _ => false

theorem mem_skipped_foldl {found : List Found} {scan : LocalScan} {x : Str}
    (h : Found.skipped x ∈ found ∨ x ∈ scan.skipped) :
    x ∈ (found.foldl LocalScan.add scan).skipped := by
  induction found generalizing scan with
  | nil => exact h.resolve_left List.not_mem_nil
  | cons y found ih =>
    refine ih ?_
    rcases h with h | h
    · rcases List.mem_cons.mp h with rfl | h
      · exact Or.inr (List.mem_append_right _ (List.mem_singleton_self x))
      · exact Or.inl h
    · refine Or.inr ?_
      cases y with
      | entry path scanned => exact h
      | skipped path => exact List.mem_append_left _ h

/-- **A link or a special file under visible names is skipped**, and not reported. -/
theorem skipped_of_unreported {root : Listing} {item : Item} (h : root.wellFormed = true)
    (hv : Visible u p) (hf : root.find p.segments = some item) (hi : item.unreported = true) :
    p.str ∈ (scanOf u cache root).skipped ∧ (scanOf u cache root).entries.get p = none := by
  have hfound : item.found cache p ∈ walk u cache none root :=
    found_of_walk root none h rfl hv hf
  refine ⟨mem_skipped_foldl (Or.inl ?_), ?_⟩
  · cases item <;> first | exact hfound | cases hi
  · rw [get_scanOf h, if_pos hv, hf]
    cases item <;> first | rfl | cases hi

end Stashden.Sync
