import Mathlib.Tactic

/-!
# Node names (`crates/core/src/name.rs`)

Text is `Str`, a list of characters: `str::len` is `byteLen` (the UTF-8 length), and the byte order
of Rust strings is the lexicographic order of their characters. A `NodeName` is a string
`NodeName::from_str` accepts; the check is `NodeName.check`, which answers the first error in
source order, and the structure carries that it answered none.

`parse_path` drops empty segments, so what it returns joins back with single separators
(`splitOn_intercalate_names`).
-/

namespace Stashden

/-- A Rust string, as its characters. -/
abbrev Str := List Char

/-- `str::len`: the number of UTF-8 bytes. -/
def byteLen (s : Str) : Nat := (s.map Char.utf8Size).sum

@[simp] theorem byteLen_nil : byteLen [] = 0 := rfl

@[simp] theorem byteLen_cons (c : Char) (s : Str) : byteLen (c :: s) = c.utf8Size + byteLen s := by
  simp [byteLen]

@[simp] theorem byteLen_append (s t : Str) : byteLen (s ++ t) = byteLen s + byteLen t := by
  simp [byteLen]

/-- `char::is_control`: the category `Cc`. -/
def isControl (c : Char) : Bool :=
  decide (c.val < 0x20) || (decide (0x7f ≤ c.val) && decide (c.val ≤ 0x9f))

namespace Core

def MAX_NAME_LEN : Nat := 255

inductive InvalidNodeName where
  | empty | separator | relative | tooLong | control
  deriving DecidableEq, Repr

/-- The checks of `NodeName::from_str`, in order. -/
def NodeName.check (s : Str) : Option InvalidNodeName :=
  if s = [] then some .empty
  else if MAX_NAME_LEN < byteLen s then some .tooLong
  else if s = ['.'] ∨ s = ['.', '.'] then some .relative
  else if '/' ∈ s ∨ '\\' ∈ s then some .separator
  else if s.any isControl then some .control
  else none

/-- `NodeName`: a string every check lets through. -/
structure NodeName where
  str : Str
  valid : NodeName.check str = none
  deriving DecidableEq

namespace NodeName

/-- `NodeName::from_str`. -/
def fromStr (s : Str) : Except InvalidNodeName NodeName :=
  match h : check s with
  | none => .ok ⟨s, h⟩
  | some e => .error e

theorem fromStr_of_valid {s : Str} (h : check s = none) : fromStr s = .ok ⟨s, h⟩ := by
  unfold fromStr
  split
  · rfl
  · rename_i e he
    rw [h] at he
    exact absurd he (by simp)

theorem fromStr_eq_ok {s : Str} {n : NodeName} (h : fromStr s = .ok n) : n.str = s := by
  unfold fromStr at h
  split at h
  · cases h; rfl
  · exact absurd h (by simp)

/-- What a valid name satisfies, check by check. -/
theorem check_eq_none_iff {s : Str} :
    check s = none ↔ s ≠ [] ∧ byteLen s ≤ MAX_NAME_LEN ∧ (s ≠ ['.'] ∧ s ≠ ['.', '.']) ∧
      ('/' ∉ s ∧ '\\' ∉ s) ∧ ∀ c ∈ s, isControl c = false := by
  unfold check
  split_ifs with h1 h2 h3 h4 h5
  · simp [h1]
  · simp only [false_iff]
    exact fun h => absurd h.2.1 (not_le.mpr h2)
  · simp only [false_iff]
    exact fun h => h3.elim h.2.2.1.1 h.2.2.1.2
  · simp only [false_iff]
    exact fun h => h4.elim h.2.2.2.1.1 h.2.2.2.1.2
  · simp only [false_iff]
    rintro ⟨-, -, -, -, h⟩
    obtain ⟨c, hc, hctl⟩ := List.any_eq_true.mp h5
    rw [h c hc] at hctl
    exact Bool.false_ne_true hctl
  · simp only [true_iff]
    refine ⟨h1, not_lt.mp h2, not_or.mp h3, not_or.mp h4, fun c hc => ?_⟩
    cases hctl : isControl c with
    | false => rfl
    | true => exact absurd (List.any_eq_true.mpr ⟨c, hc, hctl⟩) h5

theorem slash_not_mem {s : Str} (h : check s = none) : '/' ∉ s :=
  (check_eq_none_iff.mp h).2.2.2.1.1

theorem ne_nil {s : Str} (h : check s = none) : s ≠ [] := (check_eq_none_iff.mp h).1

end NodeName

/-- `parse_path`: the non-empty segments, each a name. -/
def parsePath (path : Str) : Except InvalidNodeName (List NodeName) :=
  ((path.splitOn '/').filter fun segment => decide (segment ≠ [])).mapM NodeName.fromStr

/-! ## Splitting and joining at the separator -/

theorem splitOn_append_slash (a b : Str) :
    (a ++ '/' :: b).splitOn '/' = a.splitOn '/' ++ b.splitOn '/' := by
  unfold List.splitOn
  exact List.splitOnP_append_cons a b (by simp)

theorem splitOn_of_not_mem {s : Str} (h : '/' ∉ s) : s.splitOn '/' = [s] := by
  unfold List.splitOn
  refine List.splitOnP_eq_singleton fun c hc => ?_
  rw [beq_eq_false_iff_ne]
  exact fun e => h (e ▸ hc)

/-- Joined names split back into themselves. -/
theorem splitOn_intercalate_names {names : List NodeName} (h : names ≠ []) :
    (['/'].intercalate (names.map NodeName.str)).splitOn '/' = names.map NodeName.str := by
  refine List.splitOn_intercalate '/' ?_ (by simpa using h)
  intro s hs
  obtain ⟨n, -, rfl⟩ := List.mem_map.mp hs
  exact NodeName.slash_not_mem n.valid

theorem mapM_fromStr_of_valid : ∀ {l : List Str} (_ : ∀ s ∈ l, NodeName.check s = none),
    ∃ names, l.mapM NodeName.fromStr = .ok names ∧ names.map NodeName.str = l
  | [], _ => ⟨[], rfl, rfl⟩
  | s :: l, h => by
    obtain ⟨names, hn, hs⟩ :=
      mapM_fromStr_of_valid (l := l) fun t ht => h t (List.mem_cons_of_mem s ht)
    refine ⟨⟨s, h s List.mem_cons_self⟩ :: names, ?_, by simp [hs]⟩
    rw [List.mapM_cons, NodeName.fromStr_of_valid (h s List.mem_cons_self), hn]
    rfl

/-- A string whose segments are all names parses into exactly these. -/
theorem parsePath_of_segments {s : Str} (h : ∀ seg ∈ s.splitOn '/', NodeName.check seg = none) :
    ∃ names, parsePath s = .ok names ∧ names.map NodeName.str = s.splitOn '/' := by
  unfold parsePath
  rw [List.filter_eq_self.mpr fun seg hseg => by simpa using NodeName.ne_nil (h seg hseg)]
  exact mapM_fromStr_of_valid h

end Core

end Stashden
