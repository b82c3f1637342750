import Stashden.Upload.Session

/-!
# A chunked upload (`crates/client/src/resumable.rs`)

`fill_upload` is a loop whose turn sends a chunk at the offset the client is at and takes the offset
from the answer, from the 409 that names another, or after a failure from a query. What becomes of the
requests of a turn is an input (`Turn`): the chunk never arrives, arrives in some pieces up to some
byte and stops, its answer is heard or lost; the claim of an earlier request may have lapsed. The
server handles one request at a time, and `acknowledged` notes the appends it records.

* `turn_sound`: what is on record is the source's, and the offset on record never passes its size.
* `turn_measure`: the bytes the server still lacks, whether the client is behind, and the failures
  left come down together, since a 409 leaves the client where the server is.
* `uploadChunked_exact` is both over every run of turns.
-/

namespace Stashden.Upload

/-- `CHUNK`. -/
def CHUNK : Nat := 8 * 1024 * 1024

/-- `ATTEMPTS`. -/
def ATTEMPTS : Nat := 5

/-- What becomes of the request that sends a chunk. -/
inductive Fate where
  | lost
  | refused (serverError : Bool)
  | arrives (split : List Nat) (upTo : Nat) (stop : Stop) (answered : Bool)

/-- What becomes of a turn: whether a claim left behind has lapsed by then, the chunk's fate, and
whether a query of the offset would be answered. -/
structure Turn where
  lapses : Bool
  fate : Fate
  queried : Bool

/-- The server's side: the session while it is there, and the appends it has acknowledged. -/
structure Server where
  row : Option Session
  acknowledged : List (Nat × Bytes)

inductive Chunk where
  | landed (received : Nat)
  | retry
  | fatal
  deriving DecidableEq

/-- Bytes in pieces of some lengths, and the rest. -/
def pieces : List Nat → Bytes → List Bytes
  | [], bytes => [bytes]
  | n :: split, bytes => bytes.take n :: pieces split (bytes.drop n)

/-- `PATCH /v1/uploads/{id}`. -/
def Server.patch (server : Server) (offset : Nat) (body : Arriving) : Server × Answer :=
  match server.row with
  | none => (server, .notFound)
  | some session =>
    match append session offset body with
    | (row, .advanced received) =>
      ({ row, acknowledged := server.acknowledged ++ [(session.received, body.pieces.flatten)] },
        .advanced received)
    | (row, answer) => ({ server with row }, answer)

/-- A `writing_until` that has passed. -/
def Server.lapse (server : Server) (lapses : Bool) : Server :=
  { server with row := server.row.map fun session =>
      { session with claimed := session.claimed && !lapses } }

/-- What `send_chunk` makes of an answer. -/
def heard (offset : Nat) : Answer → Chunk
  | .advanced received => .landed received
  | .offsetMismatch expected => if expected ≠ offset then .landed expected else .retry
  | .alreadyWriting | .storage => .retry
  | .wrongKind | .notFound => .fatal

/-- `send_chunk`. -/
def sendChunk (source : Bytes) (server : Server) (offset take : Nat) (fate : Fate) :
    Server × Chunk :=
  let bytes := (source.drop offset).take take
  if bytes.length ≠ take then (server, .fatal)
  else
    match fate with
    | .lost => (server, .retry)
    | .refused serverError => (server, if serverError then .retry else .fatal)
    | .arrives split upTo stop answered =>
      let sent := if stop = .whole then bytes else bytes.take upTo
      let patched := server.patch offset ⟨pieces split sent, stop⟩
      (patched.1, if answered then heard offset patched.2 else .retry)

/-- The loop of `fill_upload` between two turns; `ended` is what it returned. -/
structure Filling where
  received : Nat
  failures : Nat
  server : Server
  ended : Option Bool

/-- `upload_offset`. -/
def Server.offset (server : Server) (queried : Bool) : Option Nat :=
  if queried then server.row.map Session.received else none

/-- What the loop makes of a chunk it sent. -/
def Filling.heed (f : Filling) (queried : Bool) : Server × Chunk → Filling
  | (server, .landed received) => { f with received, failures := 0, server }
  | (server, .fatal) => { f with server, ended := some false }
  | (server, .retry) =>
    if ATTEMPTS < f.failures + 1 then
      { f with failures := f.failures + 1, server, ended := some false }
    else
      { f with
        failures := f.failures + 1
        server
        received := (server.offset queried).getD f.received }

/-- One turn of the loop. -/
def turn (source : Bytes) (chunk : Nat) (t : Turn) (f : Filling) : Filling :=
  if f.ended.isSome then f
  else if source.length ≤ f.received then { f with ended := some true }
  else
    f.heed t.queried (sendChunk source (f.server.lapse t.lapses) f.received
      (min chunk (source.length - f.received)) t.fate)

/-- `fill_upload`, after some turns. -/
def fillUpload (source : Bytes) (chunk : Nat) (turns : Nat → Turn) (start : Filling) :
    Nat → Filling
  | 0 => start
  | n + 1 => turn source chunk (turns n) (fillUpload source chunk turns start n)

/-- What becomes of the requests of an upload. -/
structure Weather where
  put : Bool
  opens : Bool
  turns : Nat → Turn
  finishes : Bool

/-- A session just opened, and the client at its offset. -/
def opened (source : Bytes) : Filling :=
  ⟨0, 0, ⟨some ⟨source.length, 0, [], false⟩, []⟩, none⟩

/-- The chunk size `upload_chunked` sends. -/
def chunkOf (chunk : Nat) : Nat := if chunk = 0 then CHUNK else chunk

/-- `upload_chunked`, after some turns: nothing while it goes on, then what it stored, if it did. -/
def uploadChunked (source : Bytes) (chunk : Nat) (w : Weather) (n : Nat) : Option (Option Bytes) :=
  if source.length ≤ chunkOf chunk then some (if w.put then some source else none)
  else if w.opens = false then some none
  else
    let filled := fillUpload source (chunkOf chunk) w.turns (opened source) n
    filled.ended.map fun ok => if ok && w.finishes then filled.server.row.bind finish else none

variable {source : Bytes} {chunk : Nat} {t : Turn} {f : Filling} {server : Server}
  {session after : Session} {offset take : Nat} {body : Arriving} {fate : Fate}

theorem flatten_pieces (split : List Nat) (bytes : Bytes) :
    (pieces split bytes).flatten = bytes := by
  induction split generalizing bytes with
  | nil => simp [pieces]
  | cons n split ih => rw [pieces, List.flatten_cons, ih, List.take_append_drop]

theorem chunkOf_pos (chunk : Nat) : 0 < chunkOf chunk := by
  unfold chunkOf CHUNK
  split_ifs <;> omega

/-! ## What is on record is the source's -/

/-- A session that holds the source's bytes as far as it has recorded any. -/
structure Session.Sound (source : Bytes) (session : Session) : Prop where
  size : session.size = source.length
  bound : session.received ≤ source.length
  staged : session.received ≤ session.staged.length
  bytes : session.staged.take session.received = source.take session.received
  whole : session.received = source.length → session.staged = source

/-- The session holds the source's bytes, and so did every append that was acknowledged. -/
structure Server.Sound (source : Bytes) (server : Server) : Prop where
  row : ∀ session, server.row = some session → session.Sound source
  acknowledged : ∀ a ∈ server.acknowledged,
    a.2 = (source.drop a.1).take a.2.length ∧ a.1 + a.2.length ≤ source.length

/-- **An append of the source's bytes at the client's offset** leaves the record sound. -/
theorem patch_sound (h : server.Sound source) (hlt : offset < source.length)
    (hbody : body.pieces.flatten <+: source.drop offset) :
    (server.patch offset body).1.Sound source := by
  unfold Server.patch
  cases hrow : server.row with
  | none => exact h
  | some session =>
    have hs := h.row session hrow
    rcases append_cases session offset body hs.staged with ⟨-, happend⟩ | ⟨-, happend⟩ | happend |
      ⟨claimed, answer, heq, hanswer, happend⟩ | ⟨heq, -, -, happend⟩
    · simp only [happend]
      exact ⟨fun s hsome => by cases hsome; exact hs, h.acknowledged⟩
    · simp only [happend]
      exact ⟨fun s hsome => by cases hsome; exact hs, h.acknowledged⟩
    · simp only [happend]
      exact ⟨fun s hsome => (by cases hsome), h.acknowledged⟩
    · have hsound : Session.Sound source { session with
          staged := session.staged.take offset ++ body.pieces.flatten, claimed } := by
        subst heq
        have hlen : (session.staged.take session.received).length = session.received :=
          List.length_take_of_le hs.staged
        refine ⟨hs.size, hs.bound, ?_, ?_, fun hfull => absurd hfull (by dsimp only; omega)⟩
        · rw [List.length_append, hlen]
          exact Nat.le_add_right _ _
        · rw [List.take_append_of_le_length hlen.ge, List.take_take, min_self]
          exact hs.bytes
      rcases hanswer with rfl | rfl
      · simp only [happend]
        exact ⟨fun s hsome => by cases hsome; exact hsound, h.acknowledged⟩
      · simp only [happend]
        exact ⟨fun s hsome => by cases hsome; exact hsound, h.acknowledged⟩
    · subst heq
      have hlen : (session.staged.take session.received).length = session.received :=
        List.length_take_of_le hs.staged
      obtain ⟨rest, hrest⟩ := hbody
      have hsource : source = source.take session.received ++ (body.pieces.flatten ++ rest) := by
        rw [hrest, List.take_append_drop]
      have hreach : session.received + body.pieces.flatten.length ≤ source.length := by
        have hcount := congrArg List.length hrest
        rw [List.length_append, List.length_drop] at hcount
        omega
      have hadded : session.staged.take session.received ++ body.pieces.flatten =
          source.take (session.received + body.pieces.flatten.length) := by
        rw [hs.bytes, List.take_add, ← hrest, List.take_left]
      simp only [happend]
      refine ⟨fun s hsome => ?_, fun a ha => ?_⟩
      · cases hsome
        refine ⟨hs.size, hreach, ?_, ?_, fun hfull => ?_⟩
        · rw [List.length_append, hlen]
        · dsimp only
          rw [hadded, List.take_take, min_self]
        · dsimp only at hfull ⊢
          rw [hadded, hfull, List.take_length]
      · rcases List.mem_append.mp ha with ha | ha
        · exact h.acknowledged a ha
        · rw [List.mem_singleton.mp ha]
          refine ⟨?_, hreach⟩
          dsimp only
          rw [← hrest, List.take_left]

theorem lapse_sound (h : server.Sound source) (lapses : Bool) :
    (server.lapse lapses).Sound source := by
  refine ⟨fun session hrow => ?_, h.acknowledged⟩
  obtain ⟨before, hbefore, rfl⟩ := Option.map_eq_some_iff.mp hrow
  have hs := h.row before hbefore
  exact ⟨hs.size, hs.bound, hs.staged, hs.bytes, hs.whole⟩

theorem sendChunk_sound (h : server.Sound source) (hlt : offset < source.length) :
    (sendChunk source server offset take fate).1.Sound source := by
  unfold sendChunk
  dsimp only
  split_ifs
  · exact h
  · cases fate with
    | lost => exact h
    | refused serverError => exact h
    | arrives split upTo stop answered =>
      refine patch_sound h hlt ?_
      dsimp only
      rw [flatten_pieces]
      split_ifs
      · exact List.take_prefix _ _
      · exact (List.take_prefix _ _).trans (List.take_prefix _ _)

@[simp] theorem heed_server (queried : Bool) (sent : Server × Chunk) :
    (f.heed queried sent).server = sent.1 := by
  obtain ⟨server, chunk⟩ := sent
  cases chunk with
  | landed received => rfl
  | fatal => rfl
  | retry =>
    unfold Filling.heed
    split_ifs <;> rfl

/-- **A turn** leaves what is on record the source's. -/
theorem turn_sound (h : f.server.Sound source) : (turn source chunk t f).server.Sound source := by
  unfold turn
  split_ifs with hended hfull
  · exact h
  · exact h
  · rw [heed_server]
    exact sendChunk_sound (lapse_sound h _) (by omega)

/-! ## The turns end -/

/-- What a `PATCH` does to the offset on record, and what it answers then. -/
theorem patch_cases (h : server.Sound source) :
    ((server.patch offset body).1.row = none ∧
      ((server.patch offset body).2 = .wrongKind ∨ (server.patch offset body).2 = .notFound)) ∨
    ∃ before after, server.row = some before ∧ (server.patch offset body).1.row = some after ∧
      (after.received = before.received ∧
        ((server.patch offset body).2 = .storage ∨
          (server.patch offset body).2 = .alreadyWriting ∨ offset ≠ before.received ∧
            (server.patch offset body).2 = .offsetMismatch before.received) ∨
      after.received = before.received + body.pieces.flatten.length ∧ body.stop = .whole ∧
        (server.patch offset body).2 = .advanced after.received) := by
  unfold Server.patch
  cases hrow : server.row with
  | none => exact Or.inl ⟨hrow, Or.inr rfl⟩
  | some before =>
    dsimp only
    rcases append_cases before offset body (h.row before hrow).staged with ⟨hne, happend⟩ |
      ⟨-, happend⟩ | happend | ⟨claimed, answer, -, rfl | rfl, happend⟩ | ⟨rfl, hstop, -, happend⟩
    · rw [happend]
      exact Or.inr ⟨before, before, rfl, rfl, Or.inl ⟨rfl, Or.inr (Or.inr ⟨hne, rfl⟩)⟩⟩
    · rw [happend]
      exact Or.inr ⟨before, before, rfl, rfl, Or.inl ⟨rfl, Or.inr (Or.inl rfl)⟩⟩
    · rw [happend]
      exact Or.inl ⟨rfl, Or.inl rfl⟩
    · rw [happend]
      exact Or.inr ⟨before, _, rfl, rfl, Or.inl ⟨rfl, Or.inl rfl⟩⟩
    · rw [happend]
      exact Or.inr ⟨before, _, rfl, rfl, Or.inl ⟨rfl, Or.inr (Or.inl rfl)⟩⟩
    · rw [happend]
      exact Or.inr ⟨before, _, rfl, rfl, Or.inr ⟨rfl, hstop, rfl⟩⟩

/-- A request that never got to the server, and may be sent again. -/
theorem unsent_cases (server : Server) :
    server.row = none ∨ ∃ before after, server.row = some before ∧ server.row = some after ∧
      after.received = before.received := by
  cases hrow : server.row with
  | none => exact Or.inl rfl
  | some session => exact Or.inr ⟨session, session, rfl, rfl, rfl⟩

/-- **What sending a chunk comes to**: it fails for good; it is to be sent again, where the offset on
record moved only forward; or the client hears of an offset it was not at. -/
theorem sendChunk_cases (h : server.Sound source) (htake : 0 < take) :
    (sendChunk source server offset take fate).2 = .fatal ∨
    ((sendChunk source server offset take fate).1.row = none ∧
      (sendChunk source server offset take fate).2 = .retry) ∨
    ∃ before after, server.row = some before ∧
      (sendChunk source server offset take fate).1.row = some after ∧
      (after.received = before.received ∧
        ((sendChunk source server offset take fate).2 = .retry ∨ offset ≠ before.received ∧
          (sendChunk source server offset take fate).2 = .landed before.received) ∨
      before.received < after.received ∧
        ((sendChunk source server offset take fate).2 = .retry ∨
          (sendChunk source server offset take fate).2 = .landed after.received)) := by
  unfold sendChunk
  dsimp only
  split_ifs with hshort
  · exact Or.inl rfl
  · rw [not_not] at hshort
    cases fate with
    | lost =>
      rcases unsent_cases server with hrow | ⟨before, after, hbefore, hafter, heq⟩
      · exact Or.inr (Or.inl ⟨hrow, rfl⟩)
      · exact Or.inr (Or.inr ⟨before, after, hbefore, hafter, Or.inl ⟨heq, Or.inl rfl⟩⟩)
    | refused serverError =>
      cases serverError with
      | false => exact Or.inl rfl
      | true =>
        rcases unsent_cases server with hrow | ⟨before, after, hbefore, hafter, heq⟩
        · exact Or.inr (Or.inl ⟨hrow, rfl⟩)
        · exact Or.inr (Or.inr ⟨before, after, hbefore, hafter, Or.inl ⟨heq, Or.inl rfl⟩⟩)
    | arrives split upTo stop answered =>
      dsimp only
      rcases @patch_cases source _ offset ⟨pieces split (if stop = .whole then
        (source.drop offset).take take else ((source.drop offset).take take).take upTo), stop⟩ h
        with ⟨hrow, hanswer⟩ | ⟨before, after, hbefore, hafter, hcase⟩
      · cases answered with
        | false => exact Or.inr (Or.inl ⟨hrow, rfl⟩)
        | true =>
          rcases hanswer with hanswer | hanswer
          · exact Or.inl (by rw [if_pos rfl, hanswer]; rfl)
          · exact Or.inl (by rw [if_pos rfl, hanswer]; rfl)
      · refine Or.inr (Or.inr ⟨before, after, hbefore, hafter, ?_⟩)
        rcases hcase with ⟨heq, hanswer⟩ | ⟨hreach, hstop, hanswer⟩
        · refine Or.inl ⟨heq, ?_⟩
          cases answered with
          | false => exact Or.inl rfl
          | true =>
            rw [if_pos rfl]
            rcases hanswer with hanswer | hanswer | ⟨hne, hanswer⟩
            · exact Or.inl (by rw [hanswer]; rfl)
            · exact Or.inl (by rw [hanswer]; rfl)
            · exact Or.inr ⟨hne, by rw [hanswer, heard, if_pos hne.symm]⟩
        · dsimp only at hstop hreach
          rw [flatten_pieces, if_pos hstop, hshort] at hreach
          refine Or.inr ⟨by omega, ?_⟩
          cases answered with
          | false => exact Or.inl rfl
          | true => exact Or.inr (by rw [if_pos rfl, hanswer]; rfl)

theorem lapse_row (server : Server) (lapses : Bool) :
    (server.lapse lapses).row.map Session.received = server.row.map Session.received := by
  unfold Server.lapse
  rw [Option.map_map]
  rfl

/-- What the server lacks of the source, with what it costs a client to be elsewhere. -/
def lack (source : Bytes) (received : Nat) : Option Nat → Nat
  | none => 0
  | some recorded => (source.length - recorded) * (2 * (ATTEMPTS + 2)) +
      if received = recorded then 0 else ATTEMPTS + 2

/-- What the turns still to come bring down. -/
def Filling.measure (source : Bytes) (f : Filling) : Nat :=
  lack source f.received (f.server.row.map Session.received) + (ATTEMPTS + 1 - f.failures)

/-- Being elsewhere costs one share. -/
theorem lack_le (source : Bytes) (received recorded : Nat) :
    lack source received (some recorded) ≤
      (source.length - recorded) * (2 * (ATTEMPTS + 2)) + (ATTEMPTS + 2) := by
  rw [lack]
  split_ifs <;> omega

/-- An offset that went up pays for where the client may be left. -/
theorem lack_grown {recorded grown : Nat} (hgrown : recorded < grown)
    (hbound : grown ≤ source.length) (left right : Nat) :
    lack source left (some grown) + (ATTEMPTS + 1) < lack source right (some recorded) := by
  have hleft := lack_le source left grown
  have hright : (source.length - recorded) * (2 * (ATTEMPTS + 2)) ≤
      lack source right (some recorded) := Nat.le_add_right _ _
  unfold ATTEMPTS at *
  omega

/-- A query leaves the client where the server is, and its failure where it was. -/
theorem lack_queried (server : Server) (queried : Bool) (received : Nat) :
    lack source ((server.offset queried).getD received) (server.row.map Session.received) ≤
      lack source received (server.row.map Session.received) := by
  unfold Server.offset
  cases queried with
  | false => exact le_rfl
  | true =>
    cases server.row with
    | none => exact le_rfl
    | some session =>
      rw [if_pos rfl, Option.map_some, Option.getD_some]
      rw [lack, lack, if_pos rfl]
      omega

/-- A chunk that is to be sent again takes one of the failures left. -/
theorem heed_retry (source : Bytes) (queried : Bool)
    (hend : (f.heed queried (server, .retry)).ended = none) :
    (f.heed queried (server, .retry)).failures = f.failures + 1 ∧ f.failures + 1 ≤ ATTEMPTS ∧
      (f.heed queried (server, .retry)).measure source ≤
        lack source f.received (server.row.map Session.received) +
          (ATTEMPTS + 1 - (f.failures + 1)) := by
  unfold Filling.heed at hend ⊢
  split_ifs at hend ⊢ with hspent
  exact ⟨rfl, Nat.le_of_not_lt hspent,
    Nat.add_le_add_right (lack_queried server queried f.received) _⟩

/-- **A turn that does not end the loop** brings the measure down. -/
theorem turn_measure (h : f.server.Sound source) (hchunk : 0 < chunk)
    (hfailures : f.failures ≤ ATTEMPTS) (hend : (turn source chunk t f).ended = none) :
    (turn source chunk t f).failures ≤ ATTEMPTS ∧
      (turn source chunk t f).measure source < f.measure source := by
  unfold turn at hend ⊢
  split_ifs at hend ⊢ with hended hfull
  · rw [hend] at hended
    cases hended
  · have hlapsed := lapse_sound h t.lapses
    have hrow := lapse_row f.server t.lapses
    have hsent := @sendChunk_sound source _ f.received (min chunk (source.length - f.received))
      t.fate hlapsed (Nat.lt_of_not_le hfull)
    have hcases := @sendChunk_cases source _ f.received (min chunk (source.length - f.received))
      t.fate hlapsed (by omega)
    generalize sendChunk source (f.server.lapse t.lapses) f.received
      (min chunk (source.length - f.received)) t.fate = sent at hcases hend hsent ⊢
    obtain ⟨server, chunk⟩ := sent
    dsimp only at hcases hsent
    have hagain {bound : Nat} (heq : chunk = .retry)
        (hlack : lack source f.received (server.row.map Session.received) ≤ bound)
        (hbound : bound ≤ lack source f.received (f.server.row.map Session.received)) :
        (f.heed t.queried (server, chunk)).failures ≤ ATTEMPTS ∧
          (f.heed t.queried (server, chunk)).measure source < f.measure source := by
      subst heq
      obtain ⟨hcount, hleft, hmeasure⟩ := heed_retry source t.queried hend
      refine ⟨hcount ▸ hleft, hmeasure.trans_lt ?_⟩
      unfold Filling.measure
      omega
    rcases hcases with rfl | ⟨hnone, hretry⟩ | ⟨before, after, hbefore, hafter, hcase⟩
    · cases hend
    · exact hagain hretry (by rw [hnone]; exact le_rfl) (Nat.zero_le _)
    · rw [hbefore] at hrow
      have hbound := (hsent.row after hafter).bound
      rcases hcase with ⟨heq, hretry | ⟨hne, rfl⟩⟩ | ⟨hgrown, hretry | rfl⟩
      · exact hagain hretry le_rfl (by rw [hafter, ← hrow, Option.map_some, Option.map_some, heq])
      · refine ⟨Nat.zero_le _, ?_⟩
        unfold Filling.measure Filling.heed
        dsimp only
        rw [hafter, ← hrow, Option.map_some, Option.map_some, heq, lack, lack, if_pos rfl,
          if_neg hne]
        omega
      · refine hagain hretry le_rfl ?_
        rw [hafter, ← hrow, Option.map_some, Option.map_some]
        exact (Nat.le_add_right _ _).trans (lack_grown hgrown hbound _ _).le
      · refine ⟨Nat.zero_le _, ?_⟩
        unfold Filling.measure Filling.heed
        dsimp only
        rw [hafter, ← hrow, Option.map_some, Option.map_some]
        exact (lack_grown hgrown hbound _ _).trans_le (Nat.le_add_right _ _)

/-! ## Every run of turns -/

theorem opened_sound (source : Bytes) : (opened source).server.Sound source := by
  refine ⟨fun session hrow => ?_, fun a ha => absurd ha List.not_mem_nil⟩
  cases hrow
  refine ⟨rfl, Nat.zero_le _, Nat.zero_le _, rfl, fun hempty => ?_⟩
  exact (List.length_eq_zero_iff.mp hempty.symm).symm

variable (source chunk) in
/-- Through every run of turns what is on record is the source's. -/
theorem fillUpload_sound (turns : Nat → Turn) (n : Nat) :
    (fillUpload source chunk turns (opened source) n).server.Sound source := by
  induction n with
  | zero => exact opened_sound source
  | succ n ih => exact turn_sound ih

theorem turn_ended (hend : (turn source chunk t f).ended = none) : f.ended = none := by
  unfold turn at hend
  split_ifs at hend with hended
  · exact hend
  · exact Option.not_isSome_iff_eq_none.mp hended

/-- A run that goes on has brought the measure down by its length. -/
theorem fillUpload_measure (hchunk : 0 < chunk) (turns : Nat → Turn) (n : Nat)
    (hend : (fillUpload source chunk turns (opened source) n).ended = none) :
    (fillUpload source chunk turns (opened source) n).failures ≤ ATTEMPTS ∧
      (fillUpload source chunk turns (opened source) n).measure source + n ≤
        (opened source).measure source := by
  induction n with
  | zero => exact ⟨Nat.zero_le _, le_rfl⟩
  | succ n ih =>
    obtain ⟨hfailures, hmeasure⟩ := ih (turn_ended hend)
    obtain ⟨hfailures', hless⟩ :=
      turn_measure (fillUpload_sound source chunk turns n) hchunk hfailures hend
    exact ⟨hfailures', (by rw [fillUpload]; omega)⟩

/-- `fill_upload` ends. -/
theorem fillUpload_ends (source : Bytes) (hchunk : 0 < chunk) (turns : Nat → Turn) :
    ∃ n, (fillUpload source chunk turns (opened source) n).ended ≠ none := by
  refine ⟨(opened source).measure source + 1, fun hend => ?_⟩
  have hmeasure := (fillUpload_measure hchunk turns _ hend).2
  omega

/-- **A chunked upload is exact and ends**: the loop returns after finitely many turns, every append
the server acknowledges is the source's at the offset it recorded, and what an upload that succeeds
stores is the source. -/
theorem uploadChunked_exact (source : Bytes) (chunk : Nat) (w : Weather) :
    (∃ n, (fillUpload source (chunkOf chunk) w.turns (opened source) n).ended ≠ none) ∧
    (∃ n, uploadChunked source chunk w n ≠ none) ∧
    (∀ n, ∀ a ∈ (fillUpload source (chunkOf chunk) w.turns (opened source) n).server.acknowledged,
      a.2 = (source.drop a.1).take a.2.length ∧ a.1 + a.2.length ≤ source.length) ∧
    ∀ n stored, uploadChunked source chunk w n = some (some stored) → stored = source := by
  have hends := fillUpload_ends source (chunkOf_pos chunk) w.turns
  refine ⟨hends, ?_, fun n a ha => (fillUpload_sound _ _ _ n).acknowledged a ha,
    fun n stored hstored => ?_⟩
  · obtain ⟨n, hn⟩ := hends
    refine ⟨n, ?_⟩
    unfold uploadChunked
    split_ifs
    · exact Option.some_ne_none _
    · exact Option.some_ne_none _
    · exact Option.some_ne_none _
    · exact fun hnone => hn (Option.map_eq_none_iff.mp hnone)
  · unfold uploadChunked at hstored
    split_ifs at hstored
    · cases hstored
      rfl
    · cases hstored
    · cases hstored
    · obtain ⟨ok, -, hok⟩ := Option.map_eq_some_iff.mp hstored
      split_ifs at hok
      obtain ⟨session, hrow, hfinish⟩ := Option.bind_eq_some_iff.mp hok
      have hs := (fillUpload_sound source (chunkOf chunk) w.turns n).row session hrow
      unfold finish at hfinish
      split_ifs at hfinish with hshort
      cases hfinish
      exact hs.whole ((not_not.mp hshort).trans hs.size)

/-- Every request arrives in two pieces, and the answer to the first one is lost. -/
def firstUnanswered : Weather where
  put := true
  opens := true
  turns := fun n => ⟨false, .arrives [1] 0 .whole (decide (n ≠ 0)), false⟩
  finishes := true

/-- Three chunks: the client, sent back to an offset it has passed, is told of the one it is at. -/
theorem uploadChunked_exact_unanswered : ∃ stored,
    uploadChunked [1, 2, 3, 4, 5] 2 firstUnanswered 5 = some (some stored) ∧
      stored = [1, 2, 3, 4, 5] ∧
      (fillUpload [1, 2, 3, 4, 5] 2 firstUnanswered.turns (opened [1, 2, 3, 4, 5]) 5).server.acknowledged =
        [(0, [1, 2]), (2, [3, 4]), (4, [5])] := by
  have hstored : uploadChunked [1, 2, 3, 4, 5] 2 firstUnanswered 5 = some (some [1, 2, 3, 4, 5]) := rfl
  exact ⟨_, hstored, (uploadChunked_exact _ 2 firstUnanswered).2.2.2 5 _ hstored, rfl⟩

end Stashden.Upload
