import Mathlib.Tactic

/-!
# Percent-encoding

A percent-encoder writes the bytes of a set, and those that are not ASCII, as `%` and two digits, and
the others as themselves; a decoder reads them back. The codec is a parameter (`Percent`), with what
it documents (`Percent.Documented`); `Percent.plain` is one that does.

`decode_encode` is the round trip over bytes, and `decode_encode_utf8` over text.
-/

namespace Stashden.Lib

/-- The UTF-8 bytes of a text. -/
def utf8 (text : List Char) : List UInt8 := text.flatMap String.utf8EncodeChar

/-- Bytes read as UTF-8. -/
def fromUtf8 (bytes : List UInt8) : Option (List Char) :=
  bytes.toByteArray.utf8Decode?.map Array.toList

/-- A digit of an escape. -/
def hexDigit (n : Nat) : Char := "0123456789ABCDEF".toList.getD n '0'

/-- A byte as an escape. -/
def escapeByte (b : UInt8) : List Char := ['%', hexDigit (b.toNat / 16), hexDigit (b.toNat % 16)]

/-- A percent-encoder for sets of ASCII bytes, and a decoder. -/
structure Percent where
  encode : (UInt8 → Bool) → List UInt8 → List Char
  decode : List Char → List UInt8

/-- What a codec documents. -/
structure Percent.Documented (P : Percent) : Prop where
  encode_nil : ∀ set, P.encode set [] = []
  encode_cons : ∀ set b bytes, P.encode set (b :: bytes) =
    (if 0x80 ≤ b ∨ set b then escapeByte b else [Char.ofNat b.toNat]) ++ P.encode set bytes
  decode_nil : P.decode [] = []
  decode_escape : ∀ b text, P.decode (escapeByte b ++ text) = b :: P.decode text
  decode_plain : ∀ c text, c ≠ '%' → P.decode (c :: text) = String.utf8EncodeChar c ++ P.decode text

namespace Percent

variable {P : Percent} {set : UInt8 → Bool}

/-! ## Text and its bytes -/

@[simp] theorem utf8_nil : utf8 [] = [] := rfl

@[simp] theorem utf8_cons (c : Char) (text : List Char) :
    utf8 (c :: text) = String.utf8EncodeChar c ++ utf8 text := rfl

@[simp] theorem utf8_append (a b : List Char) : utf8 (a ++ b) = utf8 a ++ utf8 b :=
  List.flatMap_append

theorem fromUtf8_utf8 (text : List Char) : fromUtf8 (utf8 text) = some text := by
  have h := List.utf8Decode?_utf8Encode (l := text)
  unfold List.utf8Encode at h
  unfold fromUtf8 utf8
  rw [h]
  rfl

theorem utf8EncodeChar_ofNat {n : Nat} (h : n < 0x80) :
    String.utf8EncodeChar (Char.ofNat n) = [UInt8.ofNat n] := by
  interval_cases n <;> rfl

/-! ## The round trip -/

/-- **Decoding undoes encoding**, where the set has the escape itself. -/
theorem decode_encode (hP : P.Documented) (hset : set 0x25 = true) (bytes : List UInt8)
    (text : List Char) : P.decode (P.encode set bytes ++ text) = bytes ++ P.decode text := by
  induction bytes with
  | nil => rw [hP.encode_nil, List.nil_append, List.nil_append]
  | cons b bytes ih =>
    rw [hP.encode_cons, List.append_assoc]
    split_ifs with hb
    · rw [hP.decode_escape, ih, List.cons_append]
    · obtain ⟨hascii, hkept⟩ := not_or.mp hb
      have hlt : b.toNat < 0x80 := by
        rw [UInt8.le_iff_toNat_le] at hascii
        exact Nat.lt_of_not_le hascii
      have hne : Char.ofNat b.toNat ≠ '%' := by
        intro heq
        have hbytes := congrArg String.utf8EncodeChar heq
        rw [utf8EncodeChar_ofNat hlt, UInt8.ofNat_toNat] at hbytes
        have hb : b = 0x25 := List.singleton_injective (hbytes.trans (by rfl))
        rw [hb] at hkept
        exact hkept hset
      rw [List.singleton_append, hP.decode_plain _ _ hne, ih, utf8EncodeChar_ofNat hlt,
        UInt8.ofNat_toNat, List.singleton_append, List.cons_append]

theorem decode_encode_utf8 (hP : P.Documented) (hset : set 0x25 = true) (text rest : List Char) :
    P.decode (P.encode set (utf8 text) ++ rest) = utf8 text ++ P.decode rest :=
  decode_encode hP hset _ _

/-- What an encoder writes is escapes and the bytes it keeps. -/
theorem encode_forall (hP : P.Documented) {p : Char → Prop} (hpercent : p '%')
    (hdigit : ∀ n, n < 16 → p (hexDigit n))
    (hkept : ∀ b : UInt8, b.toNat < 0x80 → set b = false → p (Char.ofNat b.toNat))
    (bytes : List UInt8) : ∀ c ∈ P.encode set bytes, p c := by
  induction bytes with
  | nil =>
    rw [hP.encode_nil]
    exact fun c hc => absurd hc List.not_mem_nil
  | cons b bytes ih =>
    rw [hP.encode_cons]
    intro c hc
    rcases List.mem_append.mp hc with hc | hc
    · split_ifs at hc with hb
      · have hlt := b.toNat_lt
        simp only [escapeByte, List.mem_cons, List.not_mem_nil, or_false] at hc
        rcases hc with rfl | rfl | rfl
        · exact hpercent
        · exact hdigit _ (by omega)
        · exact hdigit _ (by omega)
      · obtain ⟨hascii, hfree⟩ := not_or.mp hb
        rw [UInt8.le_iff_toNat_le] at hascii
        rw [List.mem_singleton.mp hc]
        exact hkept b (Nat.lt_of_not_le hascii) (Bool.eq_false_iff.mpr hfree)
    · exact ih c hc

/-! ## A codec that does what it documents -/

/-- The value of a digit. -/
def unhex (c : Char) : Option Nat :=
  if '0' ≤ c ∧ c ≤ '9' then some (c.toNat - '0'.toNat)
  else if 'A' ≤ c ∧ c ≤ 'F' then some (c.toNat - 'A'.toNat + 10)
  else if 'a' ≤ c ∧ c ≤ 'f' then some (c.toNat - 'a'.toNat + 10)
  else none

/-- Escapes as their bytes, and every other character as its own. -/
def decodePlain : List Char → List UInt8
  | [] => []
  | c :: high :: low :: text =>
    if c = '%' then
      match unhex high, unhex low with
      | some a, some b => UInt8.ofNat (a * 16 + b) :: decodePlain text
      | _, _ => String.utf8EncodeChar c ++ decodePlain (high :: low :: text)
    else String.utf8EncodeChar c ++ decodePlain (high :: low :: text)
  | c :: text => String.utf8EncodeChar c ++ decodePlain text

def plain : Percent where
  encode set bytes := bytes.flatMap fun b =>
    if 0x80 ≤ b ∨ set b then escapeByte b else [Char.ofNat b.toNat]
  decode := decodePlain

theorem unhex_hexDigit {n : Nat} (h : n < 16) : unhex (hexDigit n) = some n := by
  interval_cases n <;> rfl

theorem plain_documented : plain.Documented where
  encode_nil _ := rfl
  encode_cons _ _ _ := rfl
  decode_nil := rfl
  decode_escape b text := by
    have hlt := b.toNat_lt
    show decodePlain ('%' :: hexDigit (b.toNat / 16) :: hexDigit (b.toNat % 16) :: text) = _
    rw [decodePlain, if_pos rfl, unhex_hexDigit (by omega), unhex_hexDigit (by omega)]
    have hb : b.toNat / 16 * 16 + b.toNat % 16 = b.toNat := by omega
    dsimp only
    rw [hb, UInt8.ofNat_toNat]
    rfl
  decode_plain c text hc := by
    show decodePlain (c :: text) = _
    match text with
    | [] => rfl
    | [_] => rfl
    | _ :: _ :: _ => rw [decodePlain, if_neg hc]; rfl

end Percent

end Stashden.Lib
