import Stashden.Core.Name

/-!
# Slices of text (`str`)

Slices are by bytes, as in the source: `takeBytes at text` is `&text[..at]`, `none` where Rust would
panic for cutting a character. `takeBytes_floorCharBoundary` says that a slice up to a character
boundary found from a limit downwards exists and keeps to the limit; `takeBytes_boundaryBelow` says it
for the loop some functions write by hand.
-/

namespace Stashden

/-- `&text[..at]`: `none` where the slice would cut a character or run past the end. -/
def takeBytes : Nat → Str → Option Str
  | 0, _ => some []
  | _ + 1, [] => none
  | n + 1, c :: s =>
    if c.utf8Size ≤ n + 1 then (takeBytes (n + 1 - c.utf8Size) s).map (c :: ·) else none

/-- `str::is_char_boundary`. -/
def isCharBoundary (text : Str) (n : Nat) : Bool := (takeBytes n text).isSome

/-- `floor_char_boundary`. -/
def floorCharBoundary (text : Str) (limit : Nat) : Nat :=
  if byteLen text ≤ limit then byteLen text
  else ((List.range (limit + 1)).reverse.find? fun n => isCharBoundary text n).getD 0

/-- The boundary a loop `while !is_char_boundary(cut) { cut -= 1 }` stops at. -/
def boundaryBelow (text : Str) : Nat → Nat
  | 0 => 0
  | cut + 1 => if isCharBoundary text (cut + 1) then cut + 1 else boundaryBelow text cut

/-- A slice that exists is a prefix of exactly that many bytes. -/
theorem takeBytes_eq_some {n : Nat} {text cut : Str} (h : takeBytes n text = some cut) :
    cut <+: text ∧ byteLen cut = n := by
  induction text generalizing n cut with
  | nil =>
    cases n with
    | zero => exact ⟨by simp [← Option.some.inj h], by simp [← Option.some.inj h]⟩
    | succ n => exact absurd h (by simp [takeBytes])
  | cons c text ih =>
    cases n with
    | zero => exact ⟨by simp [← Option.some.inj h], by simp [← Option.some.inj h]⟩
    | succ n =>
      unfold takeBytes at h
      split_ifs at h with hc
      obtain ⟨rest, hrest, rfl⟩ := Option.map_eq_some_iff.mp h
      obtain ⟨hpre, hlen⟩ := ih hrest
      exact ⟨List.cons_prefix_cons.mpr ⟨rfl, hpre⟩, by rw [byteLen_cons, hlen]; omega⟩

theorem takeBytes_byteLen (text : Str) : takeBytes (byteLen text) text = some text := by
  induction text with
  | nil => rfl
  | cons c text ih =>
    have hpos := c.utf8Size_pos
    obtain ⟨n, hn⟩ : ∃ n, byteLen (c :: text) = n + 1 :=
      ⟨c.utf8Size + byteLen text - 1, by rw [byteLen_cons]; omega⟩
    rw [hn, takeBytes]
    rw [byteLen_cons] at hn
    rw [if_pos (by omega), show n + 1 - c.utf8Size = byteLen text by omega, ih]
    rfl

/-- **The slice up to `floor_char_boundary` exists, and keeps to the limit.** -/
theorem takeBytes_floorCharBoundary (text : Str) (limit : Nat) :
    ∃ cut, takeBytes (floorCharBoundary text limit) text = some cut ∧ cut <+: text ∧
      byteLen cut ≤ limit := by
  unfold floorCharBoundary
  split_ifs with hle
  · exact ⟨text, takeBytes_byteLen text, List.prefix_rfl, hle⟩
  · cases hf : (List.range (limit + 1)).reverse.find? fun n => isCharBoundary text n with
    | none => exact ⟨[], by simp [takeBytes], List.nil_prefix, by simp⟩
    | some n =>
      have hb : isCharBoundary text n = true := by simpa using List.find?_some hf
      obtain ⟨cut, hcut⟩ := Option.isSome_iff_exists.mp hb
      obtain ⟨hpre, hlen⟩ := takeBytes_eq_some hcut
      have hn : n < limit + 1 := by simpa using List.mem_of_find?_eq_some hf
      exact ⟨cut, hcut, hpre, by omega⟩

theorem boundaryBelow_le (text : Str) (cut : Nat) : boundaryBelow text cut ≤ cut := by
  induction cut with
  | zero => exact Nat.le_refl 0
  | succ cut ih =>
    unfold boundaryBelow
    split_ifs
    · exact Nat.le_refl _
    · omega

theorem takeBytes_boundaryBelow (text : Str) (cut : Nat) :
    ∃ kept, takeBytes (boundaryBelow text cut) text = some kept := by
  induction cut with
  | zero => exact ⟨[], by cases text <;> rfl⟩
  | succ cut ih =>
    unfold boundaryBelow
    split_ifs with hb
    · exact Option.isSome_iff_exists.mp hb
    · exact ih

theorem le_boundaryBelow {text : Str} {n cut : Nat} (hn : isCharBoundary text n = true)
    (hle : n ≤ cut) : n ≤ boundaryBelow text cut := by
  induction cut with
  | zero => exact hle
  | succ cut ih =>
    unfold boundaryBelow
    split_ifs with hb
    · exact hle
    · refine ih (Nat.le_of_lt_succ (lt_of_le_of_ne hle ?_))
      rintro rfl
      exact hb hn

/-- Among any four places in a text there is a boundary. -/
theorem exists_boundary (text : Str) {cut : Nat} (hcut : cut ≤ byteLen text) :
    ∃ n ≤ cut, cut < n + 4 ∧ isCharBoundary text n = true := by
  have hzero : isCharBoundary text 0 = true := by cases text <;> rfl
  induction text generalizing cut with
  | nil => exact ⟨0, Nat.zero_le _, by simp at hcut; omega, hzero⟩
  | cons c text ih =>
    have hsize := c.utf8Size_le_four
    have hpos := c.utf8Size_pos
    by_cases hc : cut < c.utf8Size
    · exact ⟨0, Nat.zero_le _, by omega, hzero⟩
    · rw [byteLen_cons] at hcut
      obtain ⟨n, hle, hnear, hn⟩ := @ih (cut - c.utf8Size) (by omega) (by cases text <;> rfl)
      refine ⟨n + c.utf8Size, by omega, by omega, ?_⟩
      obtain ⟨k, hk⟩ : ∃ k, n + c.utf8Size = k + 1 := ⟨n + c.utf8Size - 1, by omega⟩
      unfold isCharBoundary at hn ⊢
      rw [hk, takeBytes, if_pos (by omega), show k + 1 - c.utf8Size = n by omega, Option.isSome_map]
      exact hn

/-- **The loop stops within three bytes.** -/
theorem boundaryBelow_near {text : Str} {cut : Nat} (hcut : cut ≤ byteLen text) :
    cut < boundaryBelow text cut + 4 := by
  obtain ⟨n, hle, hnear, hn⟩ := exists_boundary text hcut
  have := le_boundaryBelow hn hle
  omega

end Stashden
