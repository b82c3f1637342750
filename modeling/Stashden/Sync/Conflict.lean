import Stashden.Core.Text
import Stashden.Sync.Path

/-!
# Conflict copies (`plan.rs:148-176`)

`conflictCopy` is the name a local file is set aside under: the stem, a marker with the instant,
the extension, with the stem cut to what 255 bytes leave.

`conflictCopy_spec` is what the callers use: the function always answers, with a path in the same
directory. It rests on `takeBytes_floorCharBoundary` (the slice never cuts a character) and on
`stamp_plain` (the marker has no character a name refuses).
-/

namespace Stashden.Sync

open Stashden.Core RelPath

/-- `DateTime<Utc>`: the fields its formatting reads, with the bounds the clock type keeps. -/
structure DateTime where
  year : Int
  month : Nat
  day : Nat
  hour : Nat
  minute : Nat
  second : Nat
  year_bound : -262143 ≤ year ∧ year ≤ 262142
  deriving DecidableEq

def DateTime.unixEpoch : DateTime := ⟨1970, 1, 1, 0, 0, 0, by decide⟩

/-- The last decimal digit. -/
def digit (n : Nat) : Char := Char.ofNat (48 + n % 10)

/-- The last `w` decimal digits. -/
def digits : Nat → Nat → Str
  | 0, _ => []
  | w + 1, n => digits w (n / 10) ++ [digit n]

/-- `%Y`: four digits, with a sign outside `0..=9999`. -/
def DateTime.yearText (now : DateTime) : Str :=
  let n := now.year.natAbs
  if 0 ≤ now.year ∧ now.year ≤ 9999 then digits 4 n
  else (if now.year < 0 then '-' else '+') ::
    digits (if n < 10000 then 4 else if n < 100000 then 5 else 6) n

/-- `now.format("%Y%m%dT%H%M%SZ")`. -/
def DateTime.stamp (now : DateTime) : Str :=
  now.yearText ++ digits 2 now.month ++ digits 2 now.day ++ 'T' :: digits 2 now.hour ++
    digits 2 now.minute ++ digits 2 now.second ++ ['Z']

/-- `format!(" (conflict {})", …)`. -/
def conflictSuffix (now : DateTime) : Str := " (conflict ".toList ++ now.stamp ++ [')']

/-- The stem and the extension, dot included: `name.rsplit_once('.')` unless the stem is empty. -/
def splitExtension (name : Str) : Str × Str :=
  match rsplitOnce '.' name with
  | some (stem, extension) => if stem ≠ [] then (stem, '.' :: extension) else (name, [])
  | none => (name, [])

/-- The file name `conflict_copy` builds. -/
def conflictName (name : Str) (now : DateTime) : Str :=
  let suffix := conflictSuffix now
  let (stem, extension) := splitExtension name
  let extension := if byteLen suffix + byteLen extension < MAX_NAME_LEN then extension else []
  let room := MAX_NAME_LEN - byteLen suffix - byteLen extension
  let stem := (takeBytes (floorCharBoundary stem room) stem).getD []
  stem ++ suffix ++ extension

/-- `conflict_copy`. -/
def conflictCopy (path : RelPath) (now : DateTime) : Option RelPath :=
  (path.withFileName (conflictName path.fileName now)).toOption

/-! ## The marker -/

/-- A character of the stamp: one byte, none a name refuses, not a dot. -/
def Plain (c : Char) : Prop :=
  c.utf8Size = 1 ∧ c ≠ '/' ∧ c ≠ '\\' ∧ isControl c = false ∧ c ≠ '.'

instance (c : Char) : Decidable (Plain c) := inferInstanceAs (Decidable (_ ∧ _))

theorem digit_plain (n : Nat) : Plain (digit n) := by
  have hall : ∀ k < 10, Plain (Char.ofNat (48 + k)) := by decide
  exact hall _ (Nat.mod_lt _ (by norm_num))

theorem digits_plain : ∀ (w n : Nat), ∀ c ∈ digits w n, Plain c
  | 0, _, c, hc => absurd hc List.not_mem_nil
  | w + 1, n, c, hc => by
    rcases List.mem_append.mp hc with hc | hc
    · exact digits_plain w (n / 10) c hc
    · rw [List.mem_singleton.mp hc]
      exact digit_plain n

theorem length_digits : ∀ w n : Nat, (digits w n).length = w
  | 0, _ => rfl
  | w + 1, n => by rw [digits, List.length_append, length_digits w, List.length_singleton]

theorem byteLen_plain {s : Str} (h : ∀ c ∈ s, Plain c) : byteLen s = s.length := by
  induction s with
  | nil => rfl
  | cons c s ih =>
    rw [byteLen_cons, (h c List.mem_cons_self).1, ih fun d hd => h d (List.mem_cons_of_mem c hd),
      List.length_cons]
    omega

theorem yearText_plain (now : DateTime) : ∀ c ∈ now.yearText, Plain c := by
  unfold DateTime.yearText
  simp only
  split_ifs
  · exact digits_plain _ _
  all_goals
    intro c hc
    rcases List.mem_cons.mp hc with heq | hc
    · subst heq
      decide
    · exact digits_plain _ _ c hc

theorem length_yearText_le (now : DateTime) : now.yearText.length ≤ 7 := by
  unfold DateTime.yearText
  simp only
  split_ifs <;> simp [length_digits]

theorem stamp_plain (now : DateTime) : ∀ c ∈ now.stamp, Plain c := by
  unfold DateTime.stamp
  simp only [List.forall_mem_append, List.forall_mem_cons]
  have hT : Plain 'T' := by decide
  have hZ : Plain 'Z' := by decide
  exact ⟨⟨⟨⟨⟨⟨yearText_plain now, digits_plain _ _⟩, digits_plain _ _⟩, hT, digits_plain _ _⟩,
    digits_plain _ _⟩, digits_plain _ _⟩, hZ, fun c hc => absurd hc List.not_mem_nil⟩

theorem length_stamp_le (now : DateTime) : now.stamp.length ≤ 19 := by
  have := length_yearText_le now
  simp only [DateTime.stamp, List.length_append, List.length_cons, List.length_nil, length_digits]
  omega

/-- The marker's characters: the stamp's, blanks, letters and parentheses. -/
theorem conflictSuffix_plain (now : DateTime) : ∀ c ∈ conflictSuffix now, Plain c := by
  have hall : ∀ l : Str, l.all (fun c => decide (Plain c)) = true → ∀ c ∈ l, Plain c := fun l h c hc =>
    of_decide_eq_true (List.all_eq_true.mp h c hc)
  have hopen := hall " (conflict ".toList (by decide)
  have hclose := hall [')'] (by decide)
  unfold conflictSuffix
  simp only [List.forall_mem_append]
  exact ⟨⟨hopen, stamp_plain now⟩, hclose⟩

theorem length_conflictSuffix (now : DateTime) :
    (conflictSuffix now).length = now.stamp.length + 12 := by
  unfold conflictSuffix
  have hopen : " (conflict ".toList.length = 11 := by decide
  rw [List.length_append, List.length_append, hopen, List.length_singleton]
  omega

/-- The marker ends with its closing parenthesis. -/
theorem conflictSuffix_concat (now : DateTime) : ∃ body, conflictSuffix now = body ++ [')'] :=
  ⟨_, rfl⟩

/-- The marker starts with a blank. -/
theorem conflictSuffix_cons (now : DateTime) : ∃ tail, conflictSuffix now = ' ' :: tail :=
  ⟨_, rfl⟩

theorem byteLen_conflictSuffix_le (now : DateTime) : byteLen (conflictSuffix now) ≤ 31 := by
  rw [byteLen_plain (conflictSuffix_plain now), length_conflictSuffix]
  have := length_stamp_le now
  omega

/-! ## The copy's name -/

/-- The extension is empty, or a dot with the last dot-free piece of the name. -/
theorem splitExtension_spec (name : Str) :
    (splitExtension name).1 ++ (splitExtension name).2 = name ∧
      ((splitExtension name).2 = [] ∨ ∃ ext, (splitExtension name).2 = '.' :: ext ∧ '.' ∉ ext) := by
  unfold splitExtension
  cases h : rsplitOnce '.' name with
  | none => simp
  | some ab =>
    obtain ⟨stem, ext⟩ := ab
    obtain ⟨hname, hdot⟩ := rsplitOnce_eq_some_iff.mp h
    simp only
    split_ifs
    · exact ⟨hname.symm, Or.inr ⟨ext, rfl, hdot⟩⟩
    · simp

/-- The shape of the copy's name: a piece of the stem, the marker, the extension or nothing. -/
theorem conflictName_shape (name : Str) (now : DateTime) :
    ∃ stem ext, conflictName name now = stem ++ conflictSuffix now ++ ext ∧
      stem <+: (splitExtension name).1 ∧ (ext = (splitExtension name).2 ∨ ext = []) ∧
      byteLen (conflictName name now) ≤ MAX_NAME_LEN := by
  obtain ⟨cut, hcut, hpre, hlen⟩ := takeBytes_floorCharBoundary (splitExtension name).1
    (MAX_NAME_LEN - byteLen (conflictSuffix now) -
      byteLen (if byteLen (conflictSuffix now) + byteLen (splitExtension name).2 < MAX_NAME_LEN
        then (splitExtension name).2 else []))
  have hname : conflictName name now = cut ++ conflictSuffix now ++
      (if byteLen (conflictSuffix now) + byteLen (splitExtension name).2 < MAX_NAME_LEN
        then (splitExtension name).2 else []) := by
    unfold conflictName
    simp only [hcut, Option.getD_some]
  refine ⟨cut, _, hname, hpre, ?_, ?_⟩
  · split_ifs
    · exact Or.inl rfl
    · exact Or.inr rfl
  · rw [hname, byteLen_append, byteLen_append]
    have hs := byteLen_conflictSuffix_le now
    unfold MAX_NAME_LEN at hlen ⊢
    split_ifs at hlen ⊢ with hext
    · omega
    · rw [byteLen_nil] at hlen ⊢
      omega

theorem blank_mem_conflictSuffix (now : DateTime) : ' ' ∈ conflictSuffix now :=
  List.mem_append_left _ (List.mem_append_left _ (by decide))

/-- A character of the copy's name is one of the name's, or the marker's. -/
theorem mem_conflictName {name : Str} {now : DateTime} {c : Char}
    (h : c ∈ conflictName name now) : c ∈ name ∨ c ∈ conflictSuffix now := by
  obtain ⟨stem, ext, hn, hstem, hext, -⟩ := conflictName_shape name now
  have hsplit := (splitExtension_spec name).1
  rw [hn, List.mem_append, List.mem_append] at h
  rcases h with (h | h) | h
  · exact Or.inl (hsplit ▸ List.mem_append_left _ (hstem.subset h))
  · exact Or.inr h
  · rcases hext with rfl | rfl
    · exact Or.inl (hsplit ▸ List.mem_append_right _ h)
    · exact absurd h List.not_mem_nil

theorem blank_mem_conflictName (name : Str) (now : DateTime) : ' ' ∈ conflictName name now := by
  obtain ⟨stem, ext, hn, -⟩ := conflictName_shape name now
  rw [hn]
  exact List.mem_append_left _ (List.mem_append_right _ (blank_mem_conflictSuffix now))

theorem check_conflictName {name : Str} (h : NodeName.check name = none) (now : DateTime) :
    NodeName.check (conflictName name now) = none := by
  obtain ⟨-, -, -, ⟨hslash, hback⟩, hctl⟩ := NodeName.check_eq_none_iff.mp h
  obtain ⟨-, -, -, -, -, hlen⟩ := conflictName_shape name now
  have hblank := blank_mem_conflictName name now
  have hplain := conflictSuffix_plain now
  refine NodeName.check_eq_none_iff.mpr
    ⟨List.ne_nil_of_mem hblank, hlen, ⟨?_, ?_⟩, ⟨?_, ?_⟩, ?_⟩
  · exact fun e => absurd (e ▸ hblank) (by decide)
  · exact fun e => absurd (e ▸ hblank) (by decide)
  · exact fun hm => (mem_conflictName hm).elim hslash fun hs => (hplain _ hs).2.1 rfl
  · exact fun hm => (mem_conflictName hm).elim hback fun hs => (hplain _ hs).2.2.1 rfl
  · exact fun c hm => (mem_conflictName hm).elim (hctl c) fun hs => (hplain _ hs).2.2.2.1

/-- **`conflict_copy` always answers**, with a path in the same directory under the new name. -/
theorem conflictCopy_spec (path : RelPath) (now : DateTime) :
    ∃ copy, conflictCopy path now = some copy ∧ copy.parent = path.parent ∧
      copy.fileName = conflictName path.fileName now := by
  have hcheck := check_conflictName (check_fileName path) now
  obtain ⟨copy, hcopy, hpar, hname⟩ := withFileName_spec path hcheck
  exact ⟨copy, by simp [conflictCopy, hcopy, Except.toOption], hpar, hname⟩

/-- A copy's name starts as some blank-free text only if the original's does. -/
theorem prefix_of_conflictName {name start : Str} {now : DateTime} (hblank : ' ' ∉ start)
    (h : start <+: conflictName name now) : start <+: name := by
  obtain ⟨stem, ext, hn, hstem, -⟩ := conflictName_shape name now
  have hpre : stem <+: name :=
    (splitExtension_spec name).1 ▸ hstem.trans (List.prefix_append _ _)
  obtain ⟨tail, htail⟩ := conflictSuffix_cons now
  rw [hn, List.append_assoc, htail] at h
  rcases List.prefix_or_prefix_of_prefix h (List.prefix_append stem _) with h' | ⟨t, rfl⟩
  · exact h'.trans hpre
  · -- What follows the stem starts with the marker's blank.
    cases t with
    | nil => simpa using hpre
    | cons c t =>
      rw [List.prefix_append_right_inj, List.cons_append, List.cons_prefix_cons] at h
      exact absurd (by simp [h.1]) hblank

/-- A copy's name ends as a partial download's only if the original's does. -/
theorem suffix_of_conflictName {name ending : Str} {now : DateTime} (hne : ending ≠ [])
    (hparen : ')' ∉ ending) (h : ending <:+ conflictName name now) : ending <:+ name := by
  obtain ⟨stem, ext, hn, -, hext, -⟩ := conflictName_shape name now
  obtain ⟨body, hbody⟩ := conflictSuffix_concat now
  rw [hn, hbody, ← List.append_assoc] at h
  have hin : ending <:+ ext := by
    rcases List.suffix_or_suffix_of_suffix h (List.suffix_append _ ext) with h' | ⟨pre, rfl⟩
    · exact h'
    · -- What stands before the extension ends with the marker's closing parenthesis.
      rcases List.suffix_concat_iff.mp (List.suffix_append_self_iff.mp h) with rfl | ⟨t, rfl, -⟩
      · exact List.suffix_rfl
      · exact absurd (by simp) hparen
  rcases hext with rfl | rfl
  · rw [← (splitExtension_spec name).1]
    exact hin.trans (List.suffix_append _ _)
  · exact absurd (List.suffix_nil.mp hin) hne

end Stashden.Sync
