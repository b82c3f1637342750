import Mathlib.Data.Char
import Mathlib.Data.List.Lex
import Stashden.Core.Name

/-!
# Relative paths (`crates/client/src/sync/path.rs`)

A `RelPath` is the string itself, with the proof that every segment is a node name; `parse` is the
only way in. Paths are ordered by their bytes, which is not the order of the tree: `d!x` sorts
between `d` and `d/x`.

* `isInside` is `strip_prefix` followed by `starts_with('/')`: `isInside_iff`.
* `parent` splits at the last separator, and `isInside_iff_parent` makes "inside" the transitive
  closure of "parent". `ancestors` is the loop of `record_directories_above`: `mem_ancestors_iff`.
* `lt_of_isInside`: a directory sorts before what is inside it. `prefix_of_between`: the strings
  that start with a directory's own are an interval from it on.
-/

namespace Stashden.Sync

open Stashden.Core

/-- Every segment is a node name. -/
def ValidPath (s : Str) : Prop := ∀ segment ∈ s.splitOn '/', NodeName.check segment = none

instance (s : Str) : Decidable (ValidPath s) := inferInstanceAs (Decidable (∀ _ ∈ _, _))

/-- `RelPath`. -/
structure RelPath where
  str : Str
  valid : ValidPath str

inductive InvalidRelPath where
  | empty
  | segment (source : InvalidNodeName)
  deriving DecidableEq, Repr

namespace RelPath

theorem str_injective : Function.Injective RelPath.str := by
  intro a b h
  cases a; cases b; cases h; rfl

/-- The derived `Ord`: the byte order of the string. -/
instance : LinearOrder RelPath := LinearOrder.lift' RelPath.str str_injective

theorem lt_def {a b : RelPath} : a < b ↔ a.str < b.str := Iff.rfl

theorem valid_names {names : List NodeName} (h : names ≠ []) :
    ValidPath (['/'].intercalate (names.map NodeName.str)) := by
  unfold ValidPath
  rw [splitOn_intercalate_names h]
  intro s hs
  obtain ⟨n, -, rfl⟩ := List.mem_map.mp hs
  exact n.valid

/-- `RelPath::parse`. -/
def parse (input : Str) : Except InvalidRelPath RelPath :=
  match parsePath input with
  | .error e => .error (.segment e)
  | .ok [] => .error .empty
  | .ok (n :: names) =>
    .ok ⟨['/'].intercalate ((n :: names).map NodeName.str), valid_names (List.cons_ne_nil n names)⟩

/-- **A valid path parses into itself.** -/
theorem parse_of_valid {s : Str} (h : ValidPath s) : parse s = .ok ⟨s, h⟩ := by
  obtain ⟨names, hn, hs⟩ := parsePath_of_segments h
  unfold parse
  rw [hn]
  cases names with
  | nil => exact absurd hs.symm (List.splitOn_ne_nil '/' s)
  | cons n names =>
    simp only
    congr 2
    rw [hs, List.intercalate_splitOn]

/-- `str::rsplit_once`: the halves around the last `c`. -/
def rsplitOnce (c : Char) : Str → Option (Str × Str)
  | [] => none
  | x :: xs =>
    match rsplitOnce c xs with
    | some (a, b) => some (x :: a, b)
    | none => if x = c then some ([], xs) else none

theorem rsplitOnce_eq_none_iff {c : Char} {s : Str} : rsplitOnce c s = none ↔ c ∉ s := by
  induction s with
  | nil => simp [rsplitOnce]
  | cons x xs ih =>
    unfold rsplitOnce
    cases h : rsplitOnce c xs with
    | none => simp [ih.mp h, eq_comm]
    | some ab =>
      have hm : c ∈ xs := by
        by_contra hc
        rw [ih.mpr hc] at h
        exact absurd h (by simp)
      simp [hm]

theorem rsplitOnce_eq_some_iff {c : Char} {s a b : Str} :
    rsplitOnce c s = some (a, b) ↔ s = a ++ c :: b ∧ c ∉ b := by
  induction s generalizing a b with
  | nil => simp [rsplitOnce]
  | cons x xs ih =>
    unfold rsplitOnce
    cases h : rsplitOnce c xs with
    | some ab =>
      obtain ⟨a', b'⟩ := ab
      have hx := ih.mp h
      simp only [Option.some.injEq, Prod.mk.injEq]
      constructor
      · rintro ⟨rfl, rfl⟩
        exact ⟨by rw [hx.1]; rfl, hx.2⟩
      · rintro ⟨he, hb⟩
        cases a with
        | nil =>
          obtain ⟨rfl, rfl⟩ := List.cons.inj he
          exact absurd (by rw [hx.1]; simp) hb
        | cons y a =>
          obtain ⟨rfl, htail⟩ := List.cons.inj he
          obtain ⟨rfl, rfl⟩ := Prod.mk.inj (Option.some.inj (h.symm.trans (ih.mpr ⟨htail, hb⟩)))
          exact ⟨rfl, rfl⟩
    | none =>
      have hn := rsplitOnce_eq_none_iff.mp h
      simp only
      split_ifs with hx
      · simp only [Option.some.injEq, Prod.mk.injEq]
        constructor
        · rintro ⟨rfl, rfl⟩
          exact ⟨by rw [hx]; rfl, hn⟩
        · rintro ⟨he, hb⟩
          cases a with
          | nil => exact ⟨rfl, (List.cons.inj he).2⟩
          | cons y a =>
            rw [(List.cons.inj he).2] at hn
            exact absurd (by simp) hn
      · simp only [false_iff, not_and]
        intro he
        cases a with
        | nil => exact absurd (List.cons.inj he).1 hx
        | cons y a =>
          rw [(List.cons.inj he).2] at hn
          exact absurd (by simp) hn

theorem validPath_append {a b : Str} :
    ValidPath (a ++ '/' :: b) ↔ ValidPath a ∧ ValidPath b := by
  unfold ValidPath
  rw [splitOn_append_slash]
  simp only [List.mem_append, or_imp, forall_and]

theorem validPath_of_name {n : Str} (h : NodeName.check n = none) : ValidPath n := by
  unfold ValidPath
  rw [splitOn_of_not_mem (NodeName.slash_not_mem h)]
  simpa using h

theorem check_of_validPath {n : Str} (h : ValidPath n) (hs : '/' ∉ n) : NodeName.check n = none :=
  h n (by rw [splitOn_of_not_mem hs]; exact List.mem_singleton_self n)

/-- `RelPath::depth`. -/
def depth (p : RelPath) : Nat := (p.str.splitOn '/').length

/-- The segments of the string, as `split('/')` reads them. -/
def segments (p : RelPath) : List Str := p.str.splitOn '/'

/-- `RelPath::file_name`. -/
def fileName (p : RelPath) : Str :=
  match rsplitOnce '/' p.str with
  | some (_, name) => name
  | none => p.str

/-- `RelPath::is_inside`. -/
def isInside (p directory : RelPath) : Bool :=
  match p.str.dropPrefix? directory.str with
  | some ('/' :: _) => true
  | _ => false

/-- `RelPath::parent`. -/
def parent (p : RelPath) : Option RelPath :=
  match h : rsplitOnce '/' p.str with
  | some (a, _) =>
    some ⟨a, (validPath_append.mp ((rsplitOnce_eq_some_iff.mp h).1 ▸ p.valid)).1⟩
  | none => none

/-- `RelPath::child`. -/
def child (p : RelPath) (name : Str) : Except InvalidRelPath RelPath := parse (p.str ++ '/' :: name)

/-- `RelPath::with_file_name`. -/
def withFileName (p : RelPath) (name : Str) : Except InvalidRelPath RelPath :=
  match p.parent with
  | some d => d.child name
  | none => parse name

/-! ## Parents and insides -/

theorem parent_eq_some_iff {p d : RelPath} :
    p.parent = some d ↔ ∃ name, '/' ∉ name ∧ p.str = d.str ++ '/' :: name := by
  unfold parent
  split
  · rename_i a b h
    obtain ⟨he, hb⟩ := rsplitOnce_eq_some_iff.mp h
    constructor
    · intro hd
      obtain rfl := Option.some.inj hd
      exact ⟨b, hb, he⟩
    · rintro ⟨name, hname, hp⟩
      have := rsplitOnce_eq_some_iff.mpr ⟨hp, hname⟩
      rw [h] at this
      obtain ⟨rfl, rfl⟩ := Prod.mk.inj (Option.some.inj this)
      rfl
  · rename_i h
    simp only [reduceCtorEq, false_iff]
    rintro ⟨name, -, hp⟩
    exact rsplitOnce_eq_none_iff.mp h (by rw [hp]; simp)

theorem parent_eq_none_iff {p : RelPath} : p.parent = none ↔ '/' ∉ p.str := by
  unfold parent
  split
  · rename_i a b h
    have := (rsplitOnce_eq_some_iff.mp h).1
    simp [this]
  · rename_i h
    exact ⟨fun _ => rsplitOnce_eq_none_iff.mp h, fun _ => rfl⟩

theorem isInside_iff {p d : RelPath} : p.isInside d = true ↔ ∃ rest, p.str = d.str ++ '/' :: rest := by
  unfold isInside
  constructor
  · intro h
    split at h
    · rename_i rest hr
      obtain ⟨pre, he, hpre⟩ := List.dropPrefix?_eq_some_iff.mp hr
      exact ⟨rest, by rw [he, eq_of_beq hpre]⟩
    · exact absurd h (by simp)
  · rintro ⟨rest, he⟩
    have := List.dropPrefix?_eq_some_iff.mpr
      (⟨d.str, he, beq_self_eq_true _⟩ : ∃ p', p.str = p' ++ ('/' :: rest) ∧ (p' == d.str) = true)
    simp only [this]

theorem isInside_of_parent {p d : RelPath} (h : p.parent = some d) : p.isInside d = true := by
  obtain ⟨name, -, he⟩ := parent_eq_some_iff.mp h
  exact isInside_iff.mpr ⟨name, he⟩

theorem isInside_trans {p q d : RelPath} (h₁ : p.isInside q = true) (h₂ : q.isInside d = true) :
    p.isInside d = true := by
  obtain ⟨r₁, e₁⟩ := isInside_iff.mp h₁
  obtain ⟨r₂, e₂⟩ := isInside_iff.mp h₂
  exact isInside_iff.mpr ⟨r₂ ++ '/' :: r₁, by rw [e₁, e₂]; simp⟩

theorem length_lt_of_isInside {p d : RelPath} (h : p.isInside d = true) :
    d.str.length < p.str.length := by
  obtain ⟨r, e⟩ := isInside_iff.mp h
  rw [e, List.length_append, List.length_cons]
  omega

theorem not_isInside_self (p : RelPath) : p.isInside p = false := by
  cases h : p.isInside p with
  | false => rfl
  | true => exact absurd (length_lt_of_isInside h) (lt_irrefl _)

theorem ne_of_isInside {p d : RelPath} (h : p.isInside d = true) : p ≠ d := by
  rintro rfl
  rw [not_isInside_self] at h
  exact Bool.false_ne_true h

/-- **Inside a directory means: its parent is the directory, or is inside it.** -/
theorem isInside_iff_parent {p d : RelPath} :
    p.isInside d = true ↔ ∃ q, p.parent = some q ∧ (q = d ∨ q.isInside d = true) := by
  constructor
  · intro h
    obtain ⟨rest, he⟩ := isInside_iff.mp h
    cases hs : rsplitOnce '/' rest with
    | none =>
      exact ⟨d, parent_eq_some_iff.mpr ⟨rest, rsplitOnce_eq_none_iff.mp hs, he⟩, Or.inl rfl⟩
    | some ab =>
      obtain ⟨a, b⟩ := ab
      obtain ⟨hr, hb⟩ := rsplitOnce_eq_some_iff.mp hs
      have hp : p.str = (d.str ++ '/' :: a) ++ '/' :: b := by rw [he, hr]; simp
      have hv := (validPath_append.mp (hp ▸ p.valid)).1
      exact ⟨⟨_, hv⟩, parent_eq_some_iff.mpr ⟨b, hb, hp⟩, Or.inr (isInside_iff.mpr ⟨a, rfl⟩)⟩
  · rintro ⟨q, hq, rfl | hd⟩
    · exact isInside_of_parent hq
    · exact isInside_trans (isInside_of_parent hq) hd

/-- Two directories above one path lie on one line. -/
theorem isInside_linear {p a b : RelPath} (ha : p.isInside a = true) (hb : p.isInside b = true) :
    a = b ∨ a.isInside b = true ∨ b.isInside a = true := by
  obtain ⟨r, e⟩ := isInside_iff.mp ha
  obtain ⟨s, e'⟩ := isInside_iff.mp hb
  rcases List.append_eq_append_iff.mp (e.symm.trans e') with ⟨t, hb', ht⟩ | ⟨t, ha', ht⟩
  · cases t with
    | nil => exact Or.inl (str_injective (by simpa using hb'.symm))
    | cons c t =>
      obtain ⟨rfl, -⟩ := List.cons.inj ht
      exact Or.inr (Or.inr (isInside_iff.mpr ⟨t, hb'⟩))
  · cases t with
    | nil => exact Or.inl (str_injective (by simpa using ha'))
    | cons c t =>
      obtain ⟨rfl, -⟩ := List.cons.inj ht
      exact Or.inr (Or.inl (isInside_iff.mpr ⟨t, ha'⟩))

/-- The directories above a path, nearest first, at most `n` of them. -/
def above : Nat → RelPath → List RelPath
  | 0, _ => []
  | n + 1, p =>
    match p.parent with
    | some d => d :: above n d
    | none => []

/-- The directories above a path, nearest first (the loop of `record_directories_above`). -/
def ancestors (p : RelPath) : List RelPath := above p.str.length p

theorem mem_above_iff {n : Nat} {p d : RelPath} (h : p.str.length ≤ n) :
    d ∈ above n p ↔ p.isInside d = true := by
  induction n generalizing p with
  | zero =>
    simp only [above, List.not_mem_nil, false_iff]
    exact fun hi => absurd (length_lt_of_isInside hi) (by omega)
  | succ n ih =>
    unfold above
    cases hp : p.parent with
    | none =>
      simp only [List.not_mem_nil, false_iff]
      intro hi
      obtain ⟨q, hq, -⟩ := isInside_iff_parent.mp hi
      rw [hp] at hq
      exact absurd hq (by simp)
    | some q =>
      have hlt := length_lt_of_isInside (isInside_of_parent hp)
      simp only [List.mem_cons]
      rw [ih (by omega), isInside_iff_parent (p := p), hp]
      constructor
      · exact fun h => ⟨q, rfl, h.imp_left Eq.symm⟩
      · rintro ⟨q', hq', h⟩
        obtain rfl := Option.some.inj hq'
        exact h.imp_left Eq.symm

/-- **`record_directories_above` visits exactly the directories the path is inside.** -/
theorem mem_ancestors_iff {p d : RelPath} : d ∈ p.ancestors ↔ p.isInside d = true :=
  mem_above_iff le_rfl

/-! ## File names -/

/-- The last segment is a name. -/
theorem check_fileName (p : RelPath) : NodeName.check p.fileName = none := by
  unfold fileName
  cases h : rsplitOnce '/' p.str with
  | none => exact check_of_validPath p.valid (rsplitOnce_eq_none_iff.mp h)
  | some ab =>
    obtain ⟨hp, hb⟩ := rsplitOnce_eq_some_iff.mp h
    exact check_of_validPath (validPath_append.mp (hp ▸ p.valid)).2 hb

theorem str_eq_of_parent_none {p : RelPath} (h : p.parent = none) : p.str = p.fileName := by
  unfold fileName
  rw [rsplitOnce_eq_none_iff.mpr (parent_eq_none_iff.mp h)]

theorem fileName_of_str {p d : RelPath} {name : Str} (hs : '/' ∉ name)
    (h : p.str = d.str ++ '/' :: name) : p.fileName = name := by
  unfold fileName
  rw [rsplitOnce_eq_some_iff.mpr ⟨h, hs⟩]

theorem str_eq_of_parent {p d : RelPath} (h : p.parent = some d) :
    p.str = d.str ++ '/' :: p.fileName := by
  obtain ⟨name, hs, he⟩ := parent_eq_some_iff.mp h
  rw [fileName_of_str hs he, he]

/-- `with_file_name` with a valid name: the same directory, the new name. -/
theorem withFileName_spec (p : RelPath) {name : Str} (hn : NodeName.check name = none) :
    ∃ q, p.withFileName name = .ok q ∧ q.parent = p.parent ∧ q.fileName = name := by
  have hs := NodeName.slash_not_mem hn
  unfold withFileName
  cases hp : p.parent with
  | none =>
    refine ⟨⟨name, validPath_of_name hn⟩, parse_of_valid _, parent_eq_none_iff.mpr hs, ?_⟩
    exact (str_eq_of_parent_none (p := ⟨name, validPath_of_name hn⟩)
      (parent_eq_none_iff.mpr hs)).symm
  | some d =>
    have hv : ValidPath (d.str ++ '/' :: name) := validPath_append.mpr ⟨d.valid, validPath_of_name hn⟩
    exact ⟨⟨_, hv⟩, parse_of_valid hv, parent_eq_some_iff.mpr ⟨name, hs, rfl⟩,
      fileName_of_str hs rfl⟩

/-! ## Byte order -/

/-- A directory sorts before what is inside it. -/
theorem lt_of_isInside {p d : RelPath} (h : p.isInside d = true) : d < p := by
  obtain ⟨r, e⟩ := isInside_iff.mp h
  rw [lt_def, e]
  generalize d.str = s
  induction s with
  | nil => exact List.nil_lt_cons _ _
  | cons c s ih => exact List.cons_lt_cons_iff.mpr (Or.inr ⟨rfl, ih⟩)

/-- `str::starts_with`, on two paths. -/
def startsWith (p q : RelPath) : Bool := q.str.isPrefixOf p.str

theorem startsWith_of_isInside {p d : RelPath} (h : p.isInside d = true) :
    p.startsWith d = true := by
  obtain ⟨r, e⟩ := isInside_iff.mp h
  exact List.isPrefixOf_iff_prefix.mpr ⟨_, e.symm⟩

theorem prefix_of_between_str : ∀ {d a b : Str}, d < a → a < b → d <+: b → d <+: a
  | [], a, _, _, _, _ => List.nil_prefix
  | c :: d, a, b, hda, hab, hb => by
    obtain ⟨rest, rfl⟩ := hb
    cases a with
    | nil => exact absurd hda (List.not_lt_nil _)
    | cons x a =>
      rw [List.cons_append, List.cons_lt_cons_iff] at hab
      rcases List.cons_lt_cons_iff.mp hda with hcx | ⟨rfl, hda'⟩
      · rcases hab with hxc | ⟨rfl, -⟩
        · exact absurd hxc (lt_asymm hcx)
        · exact absurd hcx (lt_irrefl _)
      · rcases hab with hcc | ⟨-, hab⟩
        · exact absurd hcc (lt_irrefl _)
        · exact (List.cons_prefix_cons).mpr ⟨rfl, prefix_of_between_str hda' hab ⟨rest, rfl⟩⟩

/-- **The paths that start with a directory's string are an interval from it on.** -/
theorem startsWith_of_between {d a b : RelPath} (hda : d < a) (hab : a < b)
    (hb : b.startsWith d = true) : a.startsWith d = true :=
  List.isPrefixOf_iff_prefix.mpr
    (prefix_of_between_str (lt_def.mp hda) (lt_def.mp hab) (List.isPrefixOf_iff_prefix.mp hb))

end RelPath

end Stashden.Sync
