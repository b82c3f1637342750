import Mathlib.Data.Bool.AllAny
import Mathlib.Data.List.TakeWhile
import Stashden.Api.Tx
import Stashden.Lib.Percent

/-!
# Paths of WebDAV (`api/src/dav/mod.rs`, `transfer.rs`)

`href` writes a path for a multistatus; `path_of` reads the path of a request, and `destination` that of
the header. The codec and the reader of URIs are parameters, with what they document: a URI's path is
as it was written, whatever stands before it, where it keeps to the characters a path may hold and the
URI is no longer than the reader takes, if it has a bound.

`href_roundtrip` rests on two facts: what `href` writes keeps to those characters
(`href_pathChars`), and what a path decodes to splits back into its names (`segments_joined`).
-/

namespace Stashden.Dav

open Lib Stashden.Core Percent

/-- `PATH_SEGMENT`: the control characters, and those that mean something around a path. -/
def PATH_SEGMENT (b : UInt8) : Bool :=
  decide (b < 0x20) || decide (b = 0x7F) || " \"#%<>?\x60\x7b\x7d".toList.any fun c => utf8 [c] == [b]

/-- `PREFIX`. -/
def PREFIX : Str := "/dav".toList

/-- A character a path of a URI may hold as it is. -/
def isPathChar (c : Char) : Bool :=
  decide (c = '!') || (decide ('$' ≤ c) && decide (c ≤ ';')) || decide (c = '=') ||
    (decide ('@' ≤ c) && decide (c ≤ '_')) || (decide ('a' ≤ c) && decide (c ≤ 'z')) ||
    decide (c = '|') || decide (c = '~')

/-- A reader of URIs: the path of the one a text is, what it takes for a scheme and an authority, and
how long a text it reads, where it has a bound. -/
structure UriReader where
  path : Str → Option Str
  isScheme : Str → Bool
  isAuthority : Str → Bool
  longest : Option Nat

/-- The text is not too long. -/
def UriReader.Fits (U : UriReader) (text : Str) : Prop := ∀ bound ∈ U.longest, text.length ≤ bound

/-- What a reader of URIs documents. -/
structure UriReader.Documented (U : UriReader) : Prop where
  origin : ∀ rest, (∀ c ∈ rest, isPathChar c = true) → U.Fits ('/' :: rest) →
    U.path ('/' :: rest) = some ('/' :: rest)
  absolute : ∀ scheme authority rest, U.isScheme scheme = true → U.isAuthority authority = true →
    (∀ c ∈ rest, isPathChar c = true) → U.Fits (scheme ++ "://".toList ++ authority ++ '/' :: rest) →
    U.path (scheme ++ "://".toList ++ authority ++ '/' :: rest) = some ('/' :: rest)
  tooLong : ∀ text, ¬ U.Fits text → U.path text = none

/-- `str::strip_prefix`. -/
def stripPrefix (before text : Str) : Option Str :=
  if before <+: text then some (text.drop before.length) else none

section

variable (P : Percent) (U : UriReader)

/-- `href`. -/
def href (path : List NodeName) (collection : Bool) : Str :=
  let out := PREFIX ++ path.flatMap fun segment => '/' :: P.encode PATH_SEGMENT (utf8 segment.str)
  if collection && !decide (out.getLast? = some '/') then out ++ ['/'] else out

/-- `path_of`, of the path of a URI. -/
def pathOf (uri : Str) : Except Api.ApiError (List NodeName) :=
  let raw := (stripPrefix PREFIX uri).getD []
  match fromUtf8 (P.decode raw) with
  | none => .error (.wrongKind "path in valid UTF-8")
  | some decoded => (parsePath decoded).mapError .invalidPath

/-- `destination`, of the header as text where there is one. -/
def destination (header : Option Str) : Except Api.ApiError (List NodeName) :=
  match header with
  | none => .error (.wrongKind "Destination header")
  | some raw =>
    let path := (U.path raw).getD raw
    match stripPrefix PREFIX path with
    | none => .error (.wrongKind "Destination under /dav")
    | some below =>
      match fromUtf8 (P.decode below) with
      | none => .error (.wrongKind "Destination in valid UTF-8")
      | some decoded => (parsePath decoded).mapError .invalidPath

end

variable {P : Percent} {U : UriReader}

theorem stripPrefix_append (before text : Str) : stripPrefix before (before ++ text) = some text := by
  rw [stripPrefix, if_pos (List.prefix_append _ _), List.drop_left]

/-! ## What a path decodes to -/

/-- A path as text, each name behind a separator. -/
def joined (path : List NodeName) : Str := path.flatMap fun segment => '/' :: segment.str

theorem joined_cons (name : NodeName) (path : List NodeName) :
    joined (name :: path) = '/' :: name.str ++ joined path := rfl

/-- `href` is the encoded names behind the prefix, and one more separator at most. -/
theorem href_eq (P : Percent) (path : List NodeName) (collection : Bool) :
    ∃ tail, (tail = [] ∨ tail = ['/']) ∧ href P path collection = PREFIX ++
      ((path.flatMap fun segment => '/' :: P.encode PATH_SEGMENT (utf8 segment.str)) ++ tail) := by
  unfold href
  dsimp only
  split_ifs
  · exact ⟨['/'], Or.inr rfl, List.append_assoc _ _ _⟩
  · exact ⟨[], Or.inl rfl, by rw [List.append_nil]⟩

theorem decode_tail (hP : P.Documented) {tail : Str} (htail : tail = [] ∨ tail = ['/']) :
    P.decode tail = utf8 tail := by
  rcases htail with rfl | rfl
  · exact hP.decode_nil
  · rw [hP.decode_plain _ _ (by decide), hP.decode_nil]
    rfl

/-- The encoded names decode to the names. -/
theorem decode_below (hP : P.Documented) (path : List NodeName) {tail : Str}
    (htail : tail = [] ∨ tail = ['/']) :
    P.decode ((path.flatMap fun segment => '/' :: P.encode PATH_SEGMENT (utf8 segment.str)) ++ tail) =
      utf8 (joined path ++ tail) := by
  induction path with
  | nil => exact decode_tail hP htail
  | cons name path ih =>
    rw [List.flatMap_cons, List.append_assoc, List.cons_append, hP.decode_plain _ _ (by decide),
      decode_encode_utf8 hP (by decide), ih, joined_cons, List.append_assoc, List.cons_append,
      utf8_cons, utf8_append name.str]

/-- Names behind separators split back into themselves. -/
theorem segments_joined (path : List NodeName) {tail first : Str}
    (htail : tail = [] ∨ tail = ['/']) (hfirst : '/' ∉ first) :
    (((first ++ (joined path ++ tail)).splitOn '/').filter fun segment => decide (segment ≠ [])) =
      ([first].filter fun segment => decide (segment ≠ [])) ++ path.map NodeName.str := by
  induction path generalizing first with
  | nil =>
    rcases htail with rfl | rfl
    · rw [joined, List.flatMap_nil, List.append_nil, List.append_nil, splitOn_of_not_mem hfirst,
        List.map_nil, List.append_nil]
    · rw [joined, List.flatMap_nil, List.nil_append, splitOn_append_slash,
        splitOn_of_not_mem hfirst, List.filter_append]
      rfl
  | cons name path ih =>
    have htext : first ++ (joined (name :: path) ++ tail) =
        first ++ '/' :: (name.str ++ (joined path ++ tail)) := by
      rw [joined_cons, List.cons_append, List.cons_append, List.append_assoc]
    have hname : [name.str].filter (fun segment => decide (segment ≠ [])) = [name.str] :=
      List.filter_eq_self.mpr (by simpa using NodeName.ne_nil name.valid)
    rw [htext, splitOn_append_slash, splitOn_of_not_mem hfirst, List.filter_append,
      ih (NodeName.slash_not_mem name.valid), hname]
    rfl

theorem mapM_fromStr_names (path : List NodeName) :
    (path.map NodeName.str).mapM NodeName.fromStr = .ok path := by
  induction path with
  | nil => rfl
  | cons name path ih =>
    rw [List.map_cons, List.mapM_cons, NodeName.fromStr_of_valid name.valid, ih]
    rfl

theorem parsePath_joined (path : List NodeName) {tail : Str} (htail : tail = [] ∨ tail = ['/']) :
    parsePath (joined path ++ tail) = .ok path := by
  have hsegments := segments_joined path htail List.not_mem_nil
  rw [List.nil_append] at hsegments
  rw [parsePath, hsegments]
  exact mapM_fromStr_names path

/-! ## What `href` writes -/

theorem hexDigit_pathChar {n : Nat} (h : n < 16) : isPathChar (hexDigit n) = true := by
  interval_cases n <;> rfl

/-- A byte the encoder keeps is one a path may hold. -/
theorem kept_pathChar : ∀ n < 128, PATH_SEGMENT (UInt8.ofNat n) = false →
    isPathChar (Char.ofNat n) = true := by
  decide

/-- **`href` keeps to the characters a path of a URI may hold.** -/
theorem href_pathChars (hP : P.Documented) (path : List NodeName) (collection : Bool) :
    ∃ rest, href P path collection = '/' :: rest ∧ ∀ c ∈ rest, isPathChar c = true := by
  obtain ⟨tail, htail, heq⟩ := href_eq P path collection
  refine ⟨"dav".toList ++ ((path.flatMap fun segment =>
    '/' :: P.encode PATH_SEGMENT (utf8 segment.str)) ++ tail), heq, fun c hc => ?_⟩
  rcases List.mem_append.mp hc with hc | hc
  · have hdav : ∀ c ∈ "dav".toList, isPathChar c = true :=
      List.all_iff_forall_prop.mp (by decide)
    exact hdav c hc
  · rcases List.mem_append.mp hc with hc | hc
    · obtain ⟨name, -, hc⟩ := List.mem_flatMap.mp hc
      rcases List.mem_cons.mp hc with rfl | hc
      · rfl
      · refine encode_forall (p := fun c => isPathChar c = true) hP rfl
          (fun n hn => hexDigit_pathChar hn) (fun b hb hkept => ?_) _ c hc
        exact kept_pathChar b.toNat hb (by rw [UInt8.ofNat_toNat]; exact hkept)
    · rcases htail with rfl | rfl
      · exact absurd hc List.not_mem_nil
      · rw [List.mem_singleton.mp hc]
        rfl

theorem pathOf_href (hP : P.Documented) (path : List NodeName) (collection : Bool) :
    pathOf P (href P path collection) = .ok path := by
  obtain ⟨tail, htail, heq⟩ := href_eq P path collection
  rw [heq, pathOf, stripPrefix_append, Option.getD_some, decode_below hP path htail,
    fromUtf8_utf8]
  dsimp only
  rw [parsePath_joined path htail]
  rfl

/-- A header whose path, or which itself where it is no URI, is what `href` wrote names the path. -/
theorem destination_of_path (hP : P.Documented) {path : List NodeName} {collection : Bool}
    {raw : Str} (h : (U.path raw).getD raw = href P path collection) :
    destination P U (some raw) = .ok path := by
  obtain ⟨tail, htail, heq⟩ := href_eq P path collection
  rw [heq] at h
  unfold destination
  dsimp only
  rw [h, stripPrefix_append]
  dsimp only
  rw [decode_below hP path htail, fromUtf8_utf8]
  dsimp only
  rw [parsePath_joined path htail]
  rfl

/-- **Paths make the round trip**: as the path of a request, and as a destination, on their own,
however long, or behind a scheme and an authority; so no two paths share an `href`. -/
theorem href_roundtrip (hP : P.Documented) (hU : U.Documented) (path : List NodeName)
    (collection : Bool) :
    (pathOf P (href P path collection) = .ok path ∧ (U.Fits (href P path collection) →
      ∃ uri, U.path (href P path collection) = some uri ∧ pathOf P uri = .ok path)) ∧
    destination P U (some (href P path collection)) = .ok path ∧
    (∀ scheme authority, U.isScheme scheme = true → U.isAuthority authority = true →
      U.Fits (scheme ++ "://".toList ++ authority ++ href P path collection) →
      destination P U (some (scheme ++ "://".toList ++ authority ++ href P path collection)) =
        .ok path) ∧
    ∀ (other : List NodeName) (flag : Bool), href P other flag = href P path collection →
      other = path := by
  obtain ⟨rest, hrest, hchars⟩ := href_pathChars hP path collection
  have horigin : U.Fits (href P path collection) →
      U.path (href P path collection) = some (href P path collection) := by
    rw [hrest]
    exact hU.origin rest hchars
  refine ⟨⟨pathOf_href hP path collection, fun hfits =>
      ⟨_, horigin hfits, pathOf_href hP path collection⟩⟩,
    @destination_of_path P U hP path collection _ ?_,
    fun scheme authority hscheme hauthority hfits =>
      @destination_of_path P U hP path collection _ ?_, fun other flag heq => ?_⟩
  · -- a text that is too long is taken as it is
    by_cases hfits : U.Fits (href P path collection)
    · rw [horigin hfits, Option.getD_some]
    · rw [hU.tooLong _ hfits, Option.getD_none]
  · rw [hrest] at hfits ⊢
    rw [hU.absolute scheme authority rest hscheme hauthority hchars hfits, Option.getD_some]
  · have hother := pathOf_href hP other flag
    rw [heq, pathOf_href hP path collection] at hother
    exact (Except.ok.inj hother).symm

/-! ## A reader of URIs that does what it documents -/

/-- The path a text starts with, up to a query or a fragment. -/
def readPath (text : Str) : Option Str :=
  let path := text.takeWhile fun c => c ≠ '?' ∧ c ≠ '#'
  if path.all isPathChar then some path else none

def isSchemeChar (c : Char) : Bool := c.isAlphanum || decide (c ∈ ['+', '-', '.'])

def isAuthorityChar (c : Char) : Bool :=
  c.isAlphanum || decide (c ∈ "-._~:@[]!$&'()*+,;=%".toList)

/-- The path of a URI, on its own or behind a scheme and an authority. -/
def readUri (text : Str) : Option Str :=
  if text.head? = some '/' then readPath text
  else
    let scheme := text.takeWhile isSchemeChar
    match stripPrefix "://".toList (text.drop scheme.length) with
    | none => none
    | some after => if scheme = [] then none else readPath (after.dropWhile isAuthorityChar)

/-- One less than the last `u16`. -/
def longestUri : Nat := 65534

def UriReader.plain : UriReader where
  path text := if text.length ≤ longestUri then readUri text else none
  isScheme s := s ≠ [] && s.all isSchemeChar
  isAuthority s := s.all isAuthorityChar
  longest := some longestUri

theorem readPath_of_pathChars {rest : Str} (h : ∀ c ∈ rest, isPathChar c = true) :
    readPath ('/' :: rest) = some ('/' :: rest) := by
  have hall : ∀ c ∈ '/' :: rest, isPathChar c = true := List.forall_mem_cons.mpr ⟨rfl, h⟩
  have htake : (('/' :: rest).takeWhile fun c => c ≠ '?' ∧ c ≠ '#') = '/' :: rest := by
    refine List.takeWhile_eq_self_iff.mpr fun c hc => decide_eq_true ⟨?_, ?_⟩
    · rintro rfl
      exact absurd (hall _ hc) (by decide)
    · rintro rfl
      exact absurd (hall _ hc) (by decide)
  unfold readPath
  dsimp only
  rw [htake, if_pos (List.all_eq_true.mpr hall)]

theorem UriReader.plain_fits {text : Str} : UriReader.plain.Fits text ↔ text.length ≤ longestUri :=
  ⟨fun h => h _ rfl, fun h _ hbound => Option.some.inj hbound ▸ h⟩

theorem UriReader.plain_documented : UriReader.plain.Documented where
  origin rest h hfits := (if_pos (plain_fits.mp hfits)).trans (readPath_of_pathChars h)
  tooLong text hfits := if_neg (mt plain_fits.mpr hfits)
  absolute scheme authority rest hscheme hauthority h hfits := by
    refine (if_pos (plain_fits.mp hfits)).trans ?_
    obtain ⟨hne, hscheme⟩ := Bool.and_eq_true_iff.mp hscheme
    have hne : scheme ≠ [] := of_decide_eq_true hne
    have htake : (scheme ++ "://".toList ++ authority ++ '/' :: rest).takeWhile isSchemeChar =
        scheme := by
      rw [List.append_assoc, List.append_assoc, List.takeWhile_append_of_pos
        (List.all_eq_true.mp hscheme)]
      exact List.append_nil scheme
    have hhead : (scheme ++ "://".toList ++ authority ++ '/' :: rest).head? ≠ some '/' := by
      cases scheme with
      | nil => exact absurd rfl hne
      | cons c scheme =>
        intro hslash
        have hc := List.all_eq_true.mp hscheme c List.mem_cons_self
        rw [Option.some.inj hslash] at hc
        exact absurd hc (by decide)
    have hdrop : (scheme ++ "://".toList ++ authority ++ '/' :: rest).drop scheme.length =
        "://".toList ++ (authority ++ '/' :: rest) := by
      rw [List.append_assoc, List.append_assoc, List.drop_left]
    unfold readUri
    dsimp only
    rw [if_neg hhead, htake, hdrop, stripPrefix_append]
    dsimp only
    rw [if_neg hne, List.dropWhile_append_of_pos (List.all_eq_true.mp hauthority)]
    exact readPath_of_pathChars h

/-- A name that looks encoded, below one with what other layers read. -/
theorem href_roundtrip_names :
    ∃ names : List NodeName, names.map NodeName.str = ["a#b? [é]^".toList, "100%25".toList] ∧
      destination plain UriReader.plain (some ("https".toList ++ "://".toList ++
        "cloud.example:8443".toList ++ href plain names true)) = .ok names := by
  let names : List NodeName := [⟨"a#b? [é]^".toList, by decide⟩, ⟨"100%25".toList, by decide⟩]
  exact ⟨names, rfl, (href_roundtrip plain_documented UriReader.plain_documented names true).2.2.1
    _ _ (by decide) (by decide) (UriReader.plain_fits.mpr (by decide))⟩

end Stashden.Dav
