import Mathlib.Tactic

/-!
# Upload sessions (`api/src/uploads.rs`)

A session is its row with its staged file. `append` compares offsets, takes the claim, writes and
records; what the body of a request comes to is an input (`Arriving`): the pieces the stream yields
and how it stops. A body that breaks leaves its bytes in the staged file and the claim released; a
handler that is dropped, or whose renewal does not land, leaves the claim.

`append_cases` says what an append comes to. `usize` and `u64` hold every size, and a size is `i64`
where the row holds it.
-/

namespace Stashden.Upload

abbrev Bytes := List UInt8

/-- `Session`, with the file it names; `claimed` is a `writing_until` still to pass. -/
structure Session where
  size : Nat
  received : Nat
  staged : Bytes
  claimed : Bool
  deriving DecidableEq

/-- How the body of a request stops. -/
inductive Stop where
  | whole
  | broken
  | dropped
  deriving DecidableEq

/-- What arrives of a body. -/
structure Arriving where
  pieces : List Bytes
  stop : Stop

inductive Wrote where
  | reached (received : Nat)
  | pastTheLimit
  deriving DecidableEq

/-- `set_len`. -/
def setLen (length : Nat) (file : Bytes) : Bytes :=
  file.take length ++ List.replicate (length - file.length) 0

/-- The loop of `write_at`, with the bytes written so far. -/
def drain (limit : Nat) : List Bytes → Bytes → Nat → Bytes × Option Nat
  | [], file, written => (file, some written)
  | chunk :: chunks, file, written =>
    if limit < written + chunk.length then (file, none)
    else drain limit chunks (file ++ chunk) (written + chunk.length)

/-- `write_at`: the file it leaves, and what it answers unless the stream broke. -/
def writeAt (staged : Bytes) (offset limit : Nat) (body : Arriving) : Bytes × Option Wrote :=
  match drain limit body.pieces (setLen offset staged) 0 with
  | (file, none) => (file, some .pastTheLimit)
  | (file, some written) =>
    (file, if body.stop = .whole then some (.reached (offset + written)) else none)

/-- What a request is answered. -/
inductive Answer where
  | advanced (received : Nat)
  | offsetMismatch (expected : Nat)
  | alreadyWriting
  | wrongKind
  | storage
  | notFound
  deriving DecidableEq

/-- What `append` does once the write is over: the row is gone where the body was too long. -/
def record (session : Session) (stop : Stop) : Bytes × Option Wrote → Option Session × Answer
  | (file, some (.reached received)) =>
    (some { session with staged := file, received, claimed := false }, .advanced received)
  | (_, some .pastTheLimit) => (none, .wrongKind)
  | (file, none) =>
    if stop = .dropped then
      (some { session with staged := file, claimed := true }, .alreadyWriting)
    else (some { session with staged := file, claimed := false }, .storage)

/-- `append`. -/
def append (session : Session) (offset : Nat) (body : Arriving) : Option Session × Answer :=
  if offset ≠ session.received then (some session, .offsetMismatch session.received)
  else if session.claimed then (some session, .alreadyWriting)
  else
    record session body.stop
      (writeAt session.staged offset (session.size - offset) body)

/-- `finish`, up to the write: the content it stores. -/
def finish (session : Session) : Option Bytes :=
  if session.received ≠ session.size then none else some session.staged

variable {limit : Nat}

/-! ## What a write leaves -/

theorem take_setLen (length : Nat) (file : Bytes) (h : length ≤ file.length) :
    setLen length file = file.take length := by
  unfold setLen
  rw [Nat.sub_eq_zero_of_le h, List.replicate_zero, List.append_nil]

/-- A write that keeps to the limit adds its pieces. -/
theorem drain_eq_some {pieces : List Bytes} {file file' : Bytes} {written total : Nat}
    (h : drain limit pieces file written = (file', some total)) :
    file' = file ++ pieces.flatten ∧ total = written + pieces.flatten.length ∧
      (written ≤ limit → total ≤ limit) := by
  induction pieces generalizing file written with
  | nil =>
    obtain ⟨rfl, htotal⟩ := Prod.mk.inj h
    cases htotal
    exact ⟨by simp, by simp, id⟩
  | cons chunk pieces ih =>
    unfold drain at h
    split_ifs at h with hlimit
    · cases h
    · obtain ⟨hfile, htotal, hle⟩ := ih h
      refine ⟨by rw [hfile, List.flatten_cons, List.append_assoc], ?_, fun _ => hle (by omega)⟩
      rw [htotal, List.flatten_cons, List.length_append]
      omega

/-- What a write comes to: past the limit, or all that arrived behind what was kept of the file. -/
theorem writeAt_cases (staged : Bytes) (offset limit : Nat) (body : Arriving)
    (hstaged : offset ≤ staged.length) :
    (∃ file, writeAt staged offset limit body = (file, some .pastTheLimit)) ∨
      body.pieces.flatten.length ≤ limit ∧ writeAt staged offset limit body =
        (staged.take offset ++ body.pieces.flatten, if body.stop = .whole then
          some (.reached (offset + body.pieces.flatten.length)) else none) := by
  unfold writeAt
  rcases hdrain : drain limit body.pieces (setLen offset staged) 0 with ⟨file, _ | total⟩
  · exact Or.inl ⟨file, rfl⟩
  · obtain ⟨hfile, htotal, hle⟩ := drain_eq_some hdrain
    have hbound := hle (Nat.zero_le _)
    rw [Nat.zero_add] at htotal
    rw [take_setLen _ _ hstaged] at hfile
    rw [hfile, htotal]
    exact Or.inr ⟨by omega, rfl⟩

/-- **What an append does**: it refuses and changes nothing, drops a session that was sent too much,
leaves what is on record with a body that broke, or records the whole of one. -/
theorem append_cases (session : Session) (offset : Nat) (body : Arriving)
    (hstaged : session.received ≤ session.staged.length) :
    (offset ≠ session.received ∧
      append session offset body = (some session, .offsetMismatch session.received)) ∨
    (offset = session.received ∧ append session offset body = (some session, .alreadyWriting)) ∨
    append session offset body = (none, .wrongKind) ∨
    (∃ claimed answer, offset = session.received ∧ (answer = .storage ∨ answer = .alreadyWriting) ∧
      append session offset body = (some { session with
        staged := session.staged.take offset ++ body.pieces.flatten, claimed }, answer)) ∨
    offset = session.received ∧ body.stop = .whole ∧
      body.pieces.flatten.length ≤ session.size - offset ∧
      append session offset body = (some { session with
        staged := session.staged.take offset ++ body.pieces.flatten
        received := offset + body.pieces.flatten.length
        claimed := false }, .advanced (offset + body.pieces.flatten.length)) := by
  unfold append
  by_cases hoffset : offset = session.received
  · rw [if_neg (not_not.mpr hoffset)]
    cases session.claimed with
    | true => exact Or.inr (Or.inl ⟨hoffset, rfl⟩)
    | false =>
      rw [if_neg Bool.false_ne_true]
      rcases writeAt_cases session.staged offset (session.size - offset) body
        (hoffset ▸ hstaged) with ⟨file, hwrite⟩ | ⟨hfits, hwrite⟩
      · rw [hwrite]
        exact Or.inr (Or.inr (Or.inl rfl))
      · rw [hwrite]
        cases body.stop with
        | whole => exact Or.inr (Or.inr (Or.inr (Or.inr ⟨hoffset, rfl, hfits, rfl⟩)))
        | broken =>
          exact Or.inr (Or.inr (Or.inr (Or.inl ⟨false, _, hoffset, Or.inl rfl, rfl⟩)))
        | dropped =>
          exact Or.inr (Or.inr (Or.inr (Or.inl ⟨true, _, hoffset, Or.inr rfl, rfl⟩)))
  · rw [if_pos hoffset]
    exact Or.inl ⟨hoffset, rfl⟩

end Stashden.Upload
