import Stashden.Upload.Session
import Mathlib.Logic.Relation

/-!
# Several requests on one session (`api/src/uploads.rs`, `api/src/routes/uploads.rs`)

`Session.lean` has a request to itself. Here the row and the staged file are two stores, written at
different moments by any number of requests, each with its own copy of the row:

* an append loads the row, takes the claim (`claim`), cuts the file back and writes piece after piece
  while `renew` keeps the claim, then records, releases, or drops the session it was sent too much for;
* a finish loads the row, reads the file piece by piece and stores what it read, then drops the
  session; `abandon` drops it at once; the sweeper drops it when it has expired, and the file with it.

A request may stop anywhere. Time passes (`pass`), but not past the claim of a request that writes:
a renewal is due every half of the claim, and the request that does not see it land stops. What a
writer is called by is its `writer` id; the log of acknowledged appends is kept for the statements only.
A call on the staged file is over when the request goes on: a write that `tokio` still has in flight
for a request that released or lost its claim is left out, and so is any difference between clocks.

`claim` does not compare offsets, so a request whose copy of the row is old takes it as well (`Stale`).

Results:
* **`session_intact`**: as long as no append takes the claim with an old copy, the staged file begins
  with exactly what the acknowledged appends sent, `received` is how much that is, one request writes
  at a time, and a finish stores those bytes; and each claim taken with an old copy has a next step
  that cuts the file back into what was acknowledged.
* `received_le`: `received` never decreases.
* `claimable`: a request that died with the claim does not strand the session.
* `append_alone`: a request that has the session to itself does what `append` says.
-/

namespace Stashden.Upload

/-! ## The row -/

/-- `CLAIM_MINUTES`. -/
def CLAIM_MINUTES : Nat := 5

/-- A row of `uploads`; `writing` is `writer` and `writing_until`, set and cleared together. -/
structure Row where
  size : Nat
  received : Nat
  expiresAt : Nat
  writing : Option (Nat × Nat)
  deriving DecidableEq

/-- `writer = $2`. -/
def Row.heldBy (writer : Nat) (row : Row) : Prop := row.writing.map Prod.fst = some writer

instance (writer : Nat) (row : Row) : Decidable (row.heldBy writer) :=
  inferInstanceAs (Decidable (_ = _))

/-- `claim`. -/
def Row.claim (now writer : Nat) (row : Row) : Option Row :=
  if ∀ held ∈ row.writing, held.2 < now then
    some { row with writing := some (writer, now + CLAIM_MINUTES * 60) }
  else none

/-- One round of `renew`. -/
def Row.renew (now writer : Nat) (row : Row) : Option Row :=
  if row.heldBy writer then some { row with writing := some (writer, now + CLAIM_MINUTES * 60) }
  else none

/-- The recording `UPDATE` of `append`, under `never_more_than_promised`. -/
def Row.record (received writer : Nat) (row : Row) : Option Row :=
  if row.heldBy writer ∧ received ≤ row.size then some { row with received, writing := none }
  else none

/-- `release`. -/
def Row.release (writer : Nat) (row : Row) : Row :=
  if row.heldBy writer then { row with writing := none } else row

/-- A write at `cursor`: what stood there is replaced, and a hole reads as zeros. -/
def writeAll (file : Bytes) (cursor : Nat) (bytes : Bytes) : Bytes :=
  setLen cursor file ++ bytes ++ file.drop (cursor + bytes.length)

/-! ## The requests -/

inductive Reply where
  | appended (answer : Answer)
  | finished (content : Bytes)
  | abandoned
  | refused
  deriving DecidableEq

/-- How far a request has come. `due` is when its claim lapses as far as it knows. -/
inductive Phase where
  | idle
  | loaded (copy : Row)
  | claimed (copy : Row) (due : Nat)
  | writing (copy : Row) (due : Nat) (sent : Bytes)
  | reached (copy : Row) (sent : Bytes)
  | past
  | broke
  | finishing (copy : Row)
  | reading (read : Bytes)
  | storing (content : Bytes)
  | dropping (reply : Reply)
  | clearing (reply : Reply)
  | answered (reply : Reply)
  deriving DecidableEq

/-- The claim a request writes under. -/
def Phase.due : Phase → Option Nat
  | .claimed _ due => some due
  | .writing _ due _ => some due
  | _ => none

structure World where
  now : Nat
  row : Option Row
  file : Bytes
  linked : Bool
  log : List (Nat × Bytes)
  phase : Nat → Phase

/-- What the acknowledged appends sent, one after the other. -/
def World.acked (w : World) : Bytes := (w.log.map Prod.snd).flatten

/-- Request `i` comes to `p`. -/
def World.put (w : World) (i : Nat) (p : Phase) : World :=
  { w with phase := Function.update w.phase i p }

/-- What `begin` leaves. -/
def begun (size now expiresAt : Nat) : World where
  now
  row := some ⟨size, 0, expiresAt, none⟩
  file := []
  linked := true
  log := []
  phase _ := .idle

/-- One step of anything that goes on around a session. -/
inductive Step : World → World → Prop
  | pass {w : World} {d : Nat} (hdue : ∀ i due, (w.phase i).due = some due → w.now + d ≤ due) :
      Step w { w with now := w.now + d }
  | load {w : World} {i : Nat} {row : Row} (hphase : w.phase i = .idle) (hrow : w.row = some row)
      (halive : w.now < row.expiresAt) : Step w (w.put i (.loaded row))
  | mismatch {w : World} {i offset : Nat} {row : Row} (hphase : w.phase i = .idle)
      (hrow : w.row = some row) (halive : w.now < row.expiresAt) (hoffset : offset ≠ row.received) :
      Step w (w.put i (.answered (.appended (.offsetMismatch row.received))))
  | claim {w : World} {i : Nat} {copy row row' : Row} (hphase : w.phase i = .loaded copy)
      (hrow : w.row = some row) (hclaim : row.claim w.now i = some row') :
      Step w ({ w with row := some row' }.put i (.claimed copy (w.now + CLAIM_MINUTES * 60)))
  | claimRefused {w : World} {i : Nat} {copy : Row} (hphase : w.phase i = .loaded copy)
      (hrow : ∀ row, w.row = some row → row.claim w.now i = none) :
      Step w (w.put i (.answered (.appended .alreadyWriting)))
  | renew {w : World} {i : Nat} {copy row row' : Row} {due : Nat}
      (hphase : w.phase i = .claimed copy due) (hrow : w.row = some row)
      (hrenew : row.renew w.now i = some row') :
      Step w ({ w with row := some row' }.put i (.claimed copy (w.now + CLAIM_MINUTES * 60)))
  | renewWriting {w : World} {i : Nat} {copy row row' : Row} {due : Nat} {sent : Bytes}
      (hphase : w.phase i = .writing copy due sent) (hrow : w.row = some row)
      (hrenew : row.renew w.now i = some row') :
      Step w ({ w with row := some row' }.put i (.writing copy (w.now + CLAIM_MINUTES * 60) sent))
  | cut {w : World} {i : Nat} {copy : Row} {due : Nat} (hphase : w.phase i = .claimed copy due)
      (hlinked : w.linked = true) :
      Step w ({ w with file := setLen copy.received w.file }.put i (.writing copy due []))
  | write {w : World} {i : Nat} {copy : Row} {due : Nat} {sent chunk : Bytes}
      (hphase : w.phase i = .writing copy due sent)
      (hroom : sent.length + chunk.length ≤ copy.size - copy.received) :
      Step w ({ w with file := writeAll w.file (copy.received + sent.length) chunk }.put i
        (.writing copy due (sent ++ chunk)))
  | whole {w : World} {i : Nat} {copy : Row} {due : Nat} {sent : Bytes}
      (hphase : w.phase i = .writing copy due sent) : Step w (w.put i (.reached copy sent))
  | pastTheLimit {w : World} {i : Nat} {copy : Row} {due : Nat} {sent chunk : Bytes}
      (hphase : w.phase i = .writing copy due sent)
      (hroom : copy.size - copy.received < sent.length + chunk.length) : Step w (w.put i .past)
  | fail {w : World} {i due : Nat} (hphase : (w.phase i).due = some due) : Step w (w.put i .broke)
  | lost {w : World} {i due : Nat} (hphase : (w.phase i).due = some due) :
      Step w (w.put i (.answered (.appended .alreadyWriting)))
  | release {w : World} {i : Nat} (hphase : w.phase i = .broke) :
      Step w ({ w with row := w.row.map (Row.release i) }.put i (.answered (.appended .storage)))
  | record {w : World} {i : Nat} {copy row row' : Row} {sent : Bytes}
      (hphase : w.phase i = .reached copy sent) (hrow : w.row = some row)
      (hrecord : row.record (copy.received + sent.length) i = some row') :
      Step w ({ w with row := some row', log := w.log ++ [(copy.received, sent)] }.put i
        (.answered (.appended (.advanced row'.received))))
  | refuseOverflow {w : World} {i : Nat} {row : Row} (hphase : w.phase i = .past)
      (hrow : w.row = some row) (hheld : row.heldBy i) :
      Step w ({ w with row := none }.put i (.clearing (.appended .wrongKind)))
  | finish {w : World} {i : Nat} {row : Row} (hphase : w.phase i = .idle) (hrow : w.row = some row)
      (halive : w.now < row.expiresAt) (hwhole : row.received = row.size) :
      Step w (w.put i (.finishing row))
  | openStaged {w : World} {i : Nat} {copy : Row} (hphase : w.phase i = .finishing copy)
      (hlinked : w.linked = true) : Step w (w.put i (.reading []))
  | read {w : World} {i n : Nat} {read : Bytes} (hphase : w.phase i = .reading read) :
      Step w (w.put i (.reading (read ++ (w.file.drop read.length).take n)))
  | stored {w : World} {i : Nat} {read : Bytes} (hphase : w.phase i = .reading read)
      (hend : w.file.length ≤ read.length) : Step w (w.put i (.storing read))
  | committed {w : World} {i : Nat} {content : Bytes} (hphase : w.phase i = .storing content) :
      Step w (w.put i (.dropping (.finished content)))
  | abandon {w : World} {i : Nat} {row : Row} (hphase : w.phase i = .idle) (hrow : w.row = some row)
      (halive : w.now < row.expiresAt) : Step w (w.put i (.dropping .abandoned))
  | drop {w : World} {i : Nat} {reply : Reply} (hphase : w.phase i = .dropping reply) :
      Step w ({ w with row := none }.put i (.clearing reply))
  | discard {w : World} {i : Nat} {reply : Reply} (hphase : w.phase i = .clearing reply) :
      Step w ({ w with linked := false }.put i (.answered reply))
  | stop {w : World} {i : Nat} (hphase : ∀ reply, w.phase i ≠ .answered reply) :
      Step w (w.put i (.answered .refused))
  | purgeExpired {w : World} {row : Row} (hrow : w.row = some row)
      (hexpired : row.expiresAt ≤ w.now) : Step w { w with row := none }
  | sweep {w : World} (hrow : w.row = none) : Step w { w with linked := false }

/-- A claim taken with a copy of the row that is no longer what the row says. -/
def Stale (w w' : World) : Prop := ∃ i copy row row', w.phase i = .loaded copy ∧
  w.row = some row ∧ row.claim w.now i = some row' ∧ copy.received ≠ row.received ∧
  w' = { w with row := some row' }.put i (.claimed copy (w.now + CLAIM_MINUTES * 60))

/-- A step that is no such claim. -/
def FreshStep (w w' : World) : Prop := Step w w' ∧ ¬ Stale w w'

/-! ## What holds of a session -/

/-- A request that writes under a claim until `due` is the one on record. -/
def Holds (w : World) (i due : Nat) : Prop :=
  w.now ≤ due ∧ ∀ row, w.row = some row → row.writing = some (i, due)

def Reply.Ok (size : Nat) (w : World) : Reply → Prop
  | .finished content => content = w.acked ∧ content.length = size
  | _ => True

/-- What a request can count on, by how far it has come. -/
def Phase.Ok (size : Nat) (w : World) (i : Nat) : Phase → Prop
  | .loaded copy => copy.size = size ∧ copy.received ≤ w.acked.length
  | .claimed copy due => Holds w i due ∧ copy.size = size ∧ copy.received = w.acked.length
  | .writing copy due sent => Holds w i due ∧ copy.size = size ∧ copy.received = w.acked.length ∧
      w.file = w.acked ++ sent
  | .reached copy sent => copy.size = size ∧ ∀ row, w.row = some row → row.heldBy i →
      copy.received = w.acked.length ∧ w.file = w.acked ++ sent
  | .finishing _ => w.acked.length = size
  | .reading read => w.acked.length = size ∧ read <+: w.file
  | .storing content => content = w.acked ∧ content.length = size
  | .dropping reply => reply.Ok size w
  | .clearing reply => reply.Ok size w ∧ w.row = none
  | .answered reply => reply.Ok size w
  | _ => True

/-- The row and the file agree with what was acknowledged. -/
structure Accounted (w : World) : Prop where
  received : ∀ row, w.row = some row → row.received = w.acked.length
  staged : w.acked <+: w.file
  chained : ∀ before o bytes after, w.log = before ++ (o, bytes) :: after →
    o = ((before.map Prod.snd).flatten).length

/-- The invariant of a session opened for `size` bytes. -/
structure Intact (size : Nat) (w : World) : Prop extends Accounted w where
  promised : ∀ row, w.row = some row → row.size = size
  fits : w.file.length ≤ size
  linked : w.row.isSome → w.linked = true
  requests : ∀ i, (w.phase i).Ok size w i
  alone : ∀ i j, (w.phase i).due.isSome → (w.phase j).due.isSome → i = j

variable {size now expiresAt i j k : Nat} {w w' s : World} {row row' copy : Row} {p q : Phase}
  {sent bytes : Bytes} {due : Nat}

/-- What a step of another request leaves to request `j`. -/
structure Spares (size : Nat) (w s : World) (j : Nat) : Prop where
  term : ∀ due, (w.phase j).due = some due → Holds w j due →
    Holds s j due ∧ s.acked = w.acked ∧ s.file = w.file
  mine : ∀ row, s.row = some row → row.heldBy j →
    (∃ old, w.row = some old ∧ old.heldBy j) ∧ s.acked = w.acked ∧ s.file = w.file
  grown : w.acked.length ≤ s.acked.length
  full : w.acked.length = size → s.acked = w.acked ∧ s.file = w.file
  gone : w.row = none → s.row = none

theorem Reply.Ok.spared {reply : Reply} (h : reply.Ok size w) (hspares : Spares size w s j) :
    reply.Ok size s := by
  cases reply with
  | finished content =>
    obtain ⟨rfl, hsize⟩ := h
    obtain ⟨hacked, -⟩ := hspares.full hsize
    exact ⟨hacked.symm, hsize⟩
  | _ => trivial

theorem Phase.Ok.spared (h : (w.phase j).Ok size w j) (hspares : Spares size w s j) :
    (w.phase j).Ok size s j := by
  have hterm := hspares.term
  cases hphase : w.phase j with
  | claimed copy due =>
    rw [hphase] at h hterm
    obtain ⟨hholds, hsize, hreceived⟩ := h
    obtain ⟨hholds', hacked, -⟩ := hterm due rfl hholds
    exact ⟨hholds', hsize, hacked ▸ hreceived⟩
  | writing copy due sent =>
    rw [hphase] at h hterm
    obtain ⟨hholds, hsize, hreceived, hfile⟩ := h
    obtain ⟨hholds', hacked, hsame⟩ := hterm due rfl hholds
    exact ⟨hholds', hsize, hacked ▸ hreceived, hsame.trans (hacked ▸ hfile)⟩
  | loaded copy =>
    rw [hphase] at h
    exact ⟨h.1, h.2.trans hspares.grown⟩
  | reached copy sent =>
    rw [hphase] at h
    refine ⟨h.1, fun row hrow hheld => ?_⟩
    obtain ⟨⟨old, hold, hheld⟩, hacked, hsame⟩ := hspares.mine row hrow hheld
    obtain ⟨hreceived, hfile⟩ := h.2 old hold hheld
    exact ⟨hacked ▸ hreceived, hsame.trans (hacked ▸ hfile)⟩
  | finishing copy =>
    rw [hphase] at h
    exact (congrArg List.length (hspares.full h).1).trans h
  | reading read =>
    rw [hphase] at h
    obtain ⟨hfull, hread⟩ := h
    obtain ⟨hacked, hfile⟩ := hspares.full hfull
    exact ⟨(congrArg List.length hacked).trans hfull, hfile ▸ hread⟩
  | storing content =>
    rw [hphase] at h
    obtain ⟨rfl, hsize⟩ := h
    exact ⟨(hspares.full hsize).1.symm, hsize⟩
  | dropping reply =>
    rw [hphase] at h
    exact Reply.Ok.spared h hspares
  | clearing reply =>
    rw [hphase] at h
    exact ⟨h.1.spared hspares, hspares.gone h.2⟩
  | answered reply =>
    rw [hphase] at h
    exact Reply.Ok.spared h hspares
  | _ => trivial

theorem Spares.refl (w : World) (j : Nat) : Spares size w w j where
  term _ _ hholds := ⟨hholds, rfl, rfl⟩
  mine row hrow hheld := ⟨⟨row, hrow, hheld⟩, rfl, rfl⟩
  grown := le_rfl
  full _ := ⟨rfl, rfl⟩
  gone := id

theorem put_phase (w : World) (i j : Nat) (p : Phase) :
    (w.put i p).phase j = if j = i then p else w.phase j := by
  by_cases h : j = i
  · rw [if_pos h, h]
    exact Function.update_self i p w.phase
  · rw [if_neg h]
    exact Function.update_of_ne h p w.phase

theorem Phase.Ok.put (h : p.Ok size w j) : p.Ok size (w.put i q) j := h

/-- A request moves on, and spares the others. -/
theorem Intact.put (h : Intact size w) (hphase : s.phase = w.phase) (hacc : Accounted s)
    (hpromised : ∀ row, s.row = some row → row.size = size) (hfits : s.file.length ≤ size)
    (hlinked : s.row.isSome → s.linked = true) (hp : p.Ok size s i)
    (hspares : ∀ j, j ≠ i → Spares size w s j)
    (hdue : p.due.isSome → ∀ j, (w.phase j).due.isSome → j = i) : Intact size (s.put i p) where
  received := hacc.received
  staged := hacc.staged
  chained := hacc.chained
  promised := hpromised
  fits := hfits
  linked := hlinked
  requests j := by
    rw [put_phase]
    by_cases hj : j = i
    · rw [if_pos hj, hj]
      exact hp.put
    · rw [if_neg hj, hphase]
      exact ((h.requests j).spared (hspares j hj)).put
  alone j k hj hk := by
    rw [put_phase] at hj hk
    rw [hphase] at hj hk
    split_ifs at hj hk with hji hki hki
    · exact hji.trans hki.symm
    · exact hji.trans (hdue hj k hk).symm
    · exact (hdue hk j hj).trans hki.symm
    · exact h.alone j k hj hk

/-- A request moves on and changes nothing else. -/
theorem Intact.goes (h : Intact size w) (hp : p.Ok size w i) (hdue : p.due = none) :
    Intact size (w.put i p) := by
  refine h.put rfl h.toAccounted h.promised h.fits h.linked hp (fun j _ => .refl w j) fun hsome => ?_
  rw [hdue] at hsome
  cases hsome

theorem Intact.holds (h : Intact size w) (hdue : (w.phase i).due = some due) : Holds w i due := by
  have hok := h.requests i
  cases hphase : w.phase i with
  | claimed copy term =>
    rw [hphase] at hok hdue
    cases hdue
    exact hok.1
  | writing copy term sent =>
    rw [hphase] at hok hdue
    cases hdue
    exact hok.1
  | _ =>
    rw [hphase] at hdue
    cases hdue

theorem Intact.only (h : Intact size w) (hdue : (w.phase i).due = some due)
    (hj : (w.phase j).due.isSome) : j = i :=
  h.alone j i hj (hdue ▸ rfl)

theorem Row.heldBy.unique (h : row.heldBy i) (h' : row.heldBy j) : j = i :=
  Option.some.inj (h'.symm.trans h)

theorem heldBy_of_writing (h : row.writing = some (i, due)) : row.heldBy i :=
  congrArg (Option.map Prod.fst) h

/-- What spares a request that neither holds the row nor comes to. -/
theorem spares_row (hnow : s.now = w.now) (hacked : s.acked = w.acked) (hfile : s.file = w.file)
    (hterm : ∀ row' old due, s.row = some row' → w.row = some old → old.writing = some (j, due) →
      w.now ≤ due → row'.writing = some (j, due))
    (hmine : ∀ row', s.row = some row' → ∃ old, w.row = some old ∧
      (row'.heldBy j → old.heldBy j)) : Spares size w s j where
  term due _ hholds := by
    refine ⟨⟨hnow ▸ hholds.1, fun row' hrow' => ?_⟩, hacked, hfile⟩
    obtain ⟨old, hold, -⟩ := hmine row' hrow'
    exact hterm row' old due hrow' hold (hholds.2 old hold) hholds.1
  mine row' hrow' hheld := by
    obtain ⟨old, hold, hback⟩ := hmine row' hrow'
    exact ⟨⟨old, hold, hback hheld⟩, hacked, hfile⟩
  grown := (congrArg List.length hacked).ge
  full _ := ⟨hacked, hfile⟩
  gone hnone := by
    by_contra hsome
    obtain ⟨row', hrow'⟩ := Option.ne_none_iff_exists'.mp hsome
    obtain ⟨old, hold, -⟩ := hmine row' hrow'
    rw [hnone] at hold
    cases hold

/-- A row that is gone is nobody's. -/
theorem Intact.gone (h : Intact size w) (hp : p.Ok size { w with row := none } i)
    (hdue : p.due = none) : Intact size ({ w with row := none }.put i p) := by
  refine h.put rfl ⟨fun _ hrow => absurd hrow (Option.some_ne_none _).symm, h.staged, h.chained⟩
    (fun _ hrow => absurd hrow (Option.some_ne_none _).symm) h.fits (fun hrow => by cases hrow) hp
    (fun j _ => spares_row rfl rfl rfl (fun _ _ _ hrow => absurd hrow (Option.some_ne_none _).symm)
      fun _ hrow => absurd hrow (Option.some_ne_none _).symm) fun hsome => ?_
  rw [hdue] at hsome
  cases hsome

/-! ## One step -/

theorem Row.claim_eq_some : row.claim now i = some row' ↔ (∀ held ∈ row.writing, held.2 < now) ∧
    row' = { row with writing := some (i, now + CLAIM_MINUTES * 60) } := by
  unfold Row.claim
  rw [Option.ite_none_right_eq_some, Option.some.injEq, eq_comm (a := row')]

theorem Row.lapsed_iff : (row.writing.any fun held => decide (now ≤ held.2)) = false ↔
    ∀ held ∈ row.writing, held.2 < now := by
  rw [Option.any_eq_false]
  simp only [decide_eq_false_iff_not, Nat.not_le, Option.mem_def]

theorem Row.renew_eq_some : row.renew now i = some row' ↔
    row.heldBy i ∧ row' = { row with writing := some (i, now + CLAIM_MINUTES * 60) } := by
  unfold Row.renew
  rw [Option.ite_none_right_eq_some, Option.some.injEq, eq_comm (a := row')]

theorem Row.record_eq_some {received : Nat} : row.record received i = some row' ↔
    (row.heldBy i ∧ received ≤ row.size) ∧ row' = { row with received, writing := none } := by
  unfold Row.record
  rw [Option.ite_none_right_eq_some, Option.some.injEq, eq_comm (a := row')]

/-- Whoever takes or keeps the claim spares the others. -/
theorem Intact.taken (h : Intact size w) (hrow : w.row = some row)
    (hfree : ∀ j term, j ≠ i → row.writing = some (j, term) → term < w.now)
    (hp : p.Ok size { w with row := some { row with writing := some (i, due) } } i)
    (hdue : ∀ j, (w.phase j).due.isSome → j = i) :
    Intact size ({ w with row := some { row with writing := some (i, due) } }.put i p) := by
  refine h.put rfl ⟨?_, h.staged, h.chained⟩ ?_ h.fits (fun _ => h.linked (hrow ▸ rfl)) hp ?_
    fun _ => hdue
  · rintro _ ⟨⟩
    exact h.received row hrow
  · rintro _ ⟨⟩
    exact h.promised row hrow
  · refine fun j hj => spares_row rfl rfl rfl ?_ ?_
    · rintro _ old term ⟨⟩ hold hwriting hterm
      rw [hrow] at hold
      cases hold
      exact absurd hterm (Nat.not_le.mpr (hfree j term hj hwriting))
    · rintro _ ⟨⟩
      exact ⟨row, hrow, fun hheld => absurd (Option.some.inj hheld).symm hj⟩

theorem intact_claim (h : Intact size w) (hphase : w.phase i = .loaded copy) (hrow : w.row = some row)
    (hclaim : row.claim w.now i = some row') (hfresh : copy.received = row.received) :
    Intact size ({ w with row := some row' }.put i
      (.claimed copy (w.now + CLAIM_MINUTES * 60))) := by
  obtain ⟨hfree, rfl⟩ := Row.claim_eq_some.mp hclaim
  have hok := h.requests i
  rw [hphase] at hok
  refine h.taken hrow (fun j term _ hwriting => hfree (j, term) hwriting)
    ⟨⟨Nat.le_add_right _ _, ?_⟩, hok.1, hfresh.trans (h.received row hrow)⟩ fun j hj => ?_
  · rintro _ ⟨⟩
    rfl
  · obtain ⟨term, hterm⟩ := Option.isSome_iff_exists.mp hj
    obtain ⟨hlive, hwriting⟩ := h.holds hterm
    exact absurd hlive (Nat.not_le.mpr (hfree _ (hwriting row hrow)))

theorem intact_renew (h : Intact size w) (hrow : w.row = some row)
    (hheld : row.heldBy i) (hdue : (w.phase i).due = some due)
    (hp : p.Ok size { w with row := some { row with
      writing := some (i, w.now + CLAIM_MINUTES * 60) } } i) :
    Intact size ({ w with row := some { row with
      writing := some (i, w.now + CLAIM_MINUTES * 60) } }.put i p) := by
  refine h.taken hrow (fun j term hj hwriting => ?_) hp fun j => h.only hdue
  exact absurd (hheld.unique (heldBy_of_writing hwriting)) hj

/-- The one that writes moves the file past what is acknowledged, and spares the others. -/
theorem Intact.wrote {file : Bytes} (h : Intact size w) (hdue : (w.phase i).due = some due)
    (hfile : file = w.acked ++ sent) (hfits : file.length ≤ size)
    (hp : p.Ok size { w with file } i) : Intact size ({ w with file }.put i p) := by
  refine h.put rfl ⟨h.received, ⟨sent, hfile.symm⟩, h.chained⟩ h.promised hfits h.linked hp ?_
    fun _ j => h.only hdue
  refine fun j hj => ⟨fun term hterm => ?_, fun row hrow hheld => ?_, le_rfl, fun hfull => ?_, id⟩
  · exact absurd (h.only hdue (hterm ▸ rfl)) hj
  · exact absurd ((heldBy_of_writing ((h.holds hdue).2 row hrow)).unique hheld) hj
  · refine ⟨rfl, ?_⟩
    have hsent : sent = [] := by
      rw [hfile, List.length_append] at hfits
      exact List.length_eq_zero_iff.mp (by omega)
    have hsame : w.acked = w.file :=
      h.staged.eq_of_length_le (by have := h.fits; omega)
    rw [hfile, hsent, List.append_nil]
    exact hsame

theorem writeAll_end (file chunk : Bytes) : writeAll file file.length chunk = file ++ chunk := by
  unfold writeAll
  rw [take_setLen _ _ le_rfl, List.take_length, List.drop_eq_nil_of_le (Nat.le_add_right _ _),
    List.append_nil]

theorem intact_cut (h : Intact size w) (hphase : w.phase i = .claimed copy due) :
    Intact size ({ w with file := setLen copy.received w.file }.put i (.writing copy due [])) := by
  have hok := h.requests i
  have hdue : (w.phase i).due = some due := congrArg Phase.due hphase
  rw [hphase] at hok
  obtain ⟨hholds, hsize, hreceived⟩ := hok
  have hkept : setLen copy.received w.file = w.acked ++ [] := by
    rw [hreceived, take_setLen _ _ h.staged.length_le, List.append_nil]
    exact (List.prefix_iff_eq_take.mp h.staged).symm
  refine h.wrote hdue hkept ?_ ⟨hholds, hsize, hreceived, hkept⟩
  rw [hkept, List.append_nil]
  exact h.staged.length_le.trans h.fits

theorem intact_write {chunk : Bytes} (h : Intact size w) (hphase : w.phase i = .writing copy due sent)
    (hroom : sent.length + chunk.length ≤ copy.size - copy.received) :
    Intact size ({ w with file := writeAll w.file (copy.received + sent.length) chunk }.put i
      (.writing copy due (sent ++ chunk))) := by
  have hok := h.requests i
  have hdue : (w.phase i).due = some due := congrArg Phase.due hphase
  rw [hphase] at hok
  obtain ⟨hholds, hsize, hreceived, hfile⟩ := hok
  have hgrown : writeAll w.file (copy.received + sent.length) chunk = w.acked ++ (sent ++ chunk) := by
    have hcursor : copy.received + sent.length = w.file.length := by
      rw [hfile, List.length_append, hreceived]
    rw [hcursor, writeAll_end, hfile, List.append_assoc]
  refine h.wrote hdue hgrown ?_ ⟨hholds, hsize, hreceived, hgrown⟩
  have hstaged := h.staged.length_le
  have hfits := h.fits
  rw [hgrown, List.length_append, List.length_append]
  omega

theorem acked_log (w : World) (o : Nat) (bytes : Bytes) :
    { w with log := w.log ++ [(o, bytes)] }.acked = w.acked ++ bytes := by
  unfold World.acked
  rw [List.map_append, List.flatten_append]
  simp

theorem chained_log (h : Accounted w) (before : List (Nat × Bytes)) (o : Nat) (bytes : Bytes)
    (after : List (Nat × Bytes)) (hlog : w.log ++ [(w.acked.length, sent)] =
      before ++ (o, bytes) :: after) : o = ((before.map Prod.snd).flatten).length := by
  rcases List.eq_nil_or_concat after with rfl | ⟨rest, last, rfl⟩
  · obtain ⟨rfl, hlast⟩ := List.append_inj' hlog rfl
    obtain ⟨rfl, -⟩ := Prod.mk.inj (List.head_eq_of_cons_eq hlast)
    rfl
  · rw [List.concat_eq_append, ← List.cons_append, ← List.append_assoc] at hlog
    exact h.chained before o bytes rest (List.append_inj' hlog rfl).1

theorem intact_record (h : Intact size w) (hphase : w.phase i = .reached copy sent)
    (hrow : w.row = some row) (hrecord : row.record (copy.received + sent.length) i = some row') :
    Intact size ({ w with row := some row', log := w.log ++ [(copy.received, sent)] }.put i
      (.answered (.appended (.advanced row'.received)))) := by
  obtain ⟨⟨hheld, hbound⟩, rfl⟩ := Row.record_eq_some.mp hrecord
  have hok := h.requests i
  rw [hphase] at hok
  obtain ⟨hreceived, hfile⟩ := hok.2 row hrow hheld
  rw [hreceived]
  have hacked := acked_log w w.acked.length sent
  have hothers : ∀ j, j ≠ i → Spares size w { w with
      row := some { row with received := w.acked.length + sent.length, writing := none }
      log := w.log ++ [(w.acked.length, sent)] } j := by
    refine fun j hj => ⟨fun term hterm hholds => ?_, ?_, ?_, fun hfull => ⟨?_, rfl⟩, fun hnone => ?_⟩
    · exact absurd (hheld.unique (heldBy_of_writing (hholds.2 row hrow))) hj
    · rintro _ ⟨⟩ hmine
      cases hmine
    · refine le_of_le_of_eq (Nat.le_add_right _ sent.length) ?_
      exact (List.length_append.symm.trans (congrArg List.length hacked.symm))
    · have hsent : sent = [] := by
        have hfits := h.fits
        rw [hfile, List.length_append] at hfits
        exact List.length_eq_zero_iff.mp (by omega)
      refine hacked.trans ?_
      rw [hsent, List.append_nil]
    · rw [hrow] at hnone
      cases hnone
  refine h.put rfl ⟨?_, ?_, chained_log h.toAccounted⟩ ?_ h.fits (fun _ => h.linked (hrow ▸ rfl))
    trivial hothers fun hsome => absurd hsome Bool.false_ne_true
  · rintro _ ⟨⟩
    exact (List.length_append.symm.trans (congrArg List.length hacked.symm))
  · exact ⟨[], (List.append_nil _).trans (hacked.trans hfile.symm)⟩
  · rintro _ ⟨⟩
    exact h.promised row hrow

theorem intact_release (h : Intact size w) :
    Intact size ({ w with row := w.row.map (Row.release i) }.put i
      (.answered (.appended .storage))) := by
  have hback : ∀ {row'}, w.row.map (Row.release i) = some row' → ∃ old, w.row = some old ∧
      row'.size = old.size ∧ row'.received = old.received ∧
      (row'.writing = old.writing ∨ row'.writing = none ∧ old.heldBy i) := by
    intro row' hrow'
    obtain ⟨old, hold, rfl⟩ := Option.map_eq_some_iff.mp hrow'
    unfold Row.release
    split_ifs with hheld
    · exact ⟨old, hold, rfl, rfl, Or.inr ⟨rfl, hheld⟩⟩
    · exact ⟨old, hold, rfl, rfl, Or.inl rfl⟩
  refine h.put rfl ⟨fun row' hrow' => ?_, h.staged, h.chained⟩ (fun row' hrow' => ?_) h.fits
    (fun hsome => h.linked ?_) trivial (fun j hj => spares_row rfl rfl rfl ?_ ?_)
    fun hsome => absurd hsome Bool.false_ne_true
  · obtain ⟨old, hold, -, hreceived, -⟩ := hback hrow'
    exact hreceived.trans (h.received old hold)
  · obtain ⟨old, hold, hsize, -⟩ := hback hrow'
    exact hsize.trans (h.promised old hold)
  · rwa [Option.isSome_map] at hsome
  · intro row' old due hrow' hold hwriting _
    obtain ⟨old', hold', -, -, hsame | ⟨-, hheld⟩⟩ := hback hrow'
    · rw [hold] at hold'
      cases hold'
      exact hsame.trans hwriting
    · rw [hold] at hold'
      cases hold'
      exact absurd (hheld.unique (heldBy_of_writing hwriting)) hj
  · intro row' hrow'
    obtain ⟨old, hold, -, -, hsame | ⟨hnone, -⟩⟩ := hback hrow'
    · refine ⟨old, hold, fun hheld => ?_⟩
      unfold Row.heldBy at hheld ⊢
      rwa [hsame] at hheld
    · refine ⟨old, hold, fun hheld => ?_⟩
      unfold Row.heldBy at hheld
      rw [hnone] at hheld
      cases hheld

/-- What is done apart from any request. -/
theorem Intact.apart (h : Intact size w) (hphase : s.phase = w.phase) (hlog : s.log = w.log)
    (hfile : s.file = w.file) (hrow : ∀ row, s.row = some row → w.row = some row)
    (hlinked : s.row.isSome → s.linked = true)
    (hnow : ∀ j due, (w.phase j).due = some due → w.now ≤ due → s.now ≤ due) : Intact size s := by
  have hacked : s.acked = w.acked := congrArg (fun log => (log.map Prod.snd).flatten) hlog
  refine ⟨⟨fun row hs => ?_, ?_, ?_⟩, fun row hs => h.promised row (hrow row hs), hfile ▸ h.fits,
    hlinked, fun j => ?_, ?_⟩
  · rw [hacked]
    exact h.received row (hrow row hs)
  · rw [hacked, hfile]
    exact h.staged
  · rw [hlog]
    exact h.chained
  · rw [hphase]
    refine (h.requests j).spared ⟨fun due hdue hholds => ⟨⟨hnow j due hdue hholds.1,
      fun row hs => hholds.2 row (hrow row hs)⟩, hacked, hfile⟩, fun row hs hheld =>
      ⟨⟨row, hrow row hs, hheld⟩, hacked, hfile⟩, (congrArg List.length hacked).ge,
      fun _ => ⟨hacked, hfile⟩, fun hnone => ?_⟩
    by_contra hsome
    obtain ⟨row, hs⟩ := Option.ne_none_iff_exists'.mp hsome
    rw [hrow row hs] at hnone
    cases hnone
  · rw [hphase]
    exact h.alone

/-- A finish that loaded a full session finds all of it acknowledged. -/
theorem Intact.whole (h : Intact size w) (hrow : w.row = some row) (hwhole : row.received = row.size) :
    w.acked.length = size :=
  (h.received row hrow).symm.trans (hwhole.trans (h.promised row hrow))

theorem intact_step (h : Intact size w) (hstep : Step w w') (hfresh : ¬ Stale w w') :
    Intact size w' := by
  cases hstep with
  | pass hdue =>
    exact h.apart rfl rfl rfl (fun _ => id) h.linked fun j due hj _ => hdue j due hj
  | load hphase hrow halive =>
    exact h.goes ⟨h.promised _ hrow, (h.received _ hrow).le⟩ rfl
  | mismatch hphase hrow halive hoffset => exact h.goes trivial rfl
  | claim hphase hrow hclaim =>
    refine intact_claim h hphase hrow hclaim (by_contra fun hstale => hfresh ?_)
    exact ⟨_, _, _, _, hphase, hrow, hclaim, hstale, rfl⟩
  | claimRefused hphase hrow => exact h.goes trivial rfl
  | @renew i copy row _ due hphase hrow hrenew =>
    obtain ⟨hheld, rfl⟩ := Row.renew_eq_some.mp hrenew
    have hok := h.requests i
    rw [hphase] at hok
    refine intact_renew h hrow hheld (congrArg Phase.due hphase)
      ⟨⟨Nat.le_add_right _ _, ?_⟩, hok.2⟩
    rintro _ ⟨⟩
    rfl
  | @renewWriting i copy row _ due sent hphase hrow hrenew =>
    obtain ⟨hheld, rfl⟩ := Row.renew_eq_some.mp hrenew
    have hok := h.requests i
    rw [hphase] at hok
    refine intact_renew h hrow hheld (congrArg Phase.due hphase)
      ⟨⟨Nat.le_add_right _ _, ?_⟩, hok.2⟩
    rintro _ ⟨⟩
    rfl
  | cut hphase hlinked => exact intact_cut h hphase
  | write hphase hroom => exact intact_write h hphase hroom
  | @whole i copy due sent hphase =>
    have hok := h.requests i
    rw [hphase] at hok
    exact h.goes ⟨hok.2.1, fun _ _ _ => hok.2.2⟩ rfl
  | pastTheLimit hphase hroom => exact h.goes trivial rfl
  | fail hphase => exact h.goes trivial rfl
  | lost hphase => exact h.goes trivial rfl
  | release hphase => exact intact_release h
  | record hphase hrow hrecord => exact intact_record h hphase hrow hrecord
  | refuseOverflow hphase hrow hheld => exact h.gone ⟨trivial, rfl⟩ rfl
  | finish hphase hrow halive hwhole => exact h.goes (h.whole hrow hwhole) rfl
  | @openStaged i copy hphase hlinked =>
    have hok := h.requests i
    rw [hphase] at hok
    exact h.goes ⟨hok, List.nil_prefix⟩ rfl
  | @read i n read hphase =>
    have hok := h.requests i
    rw [hphase] at hok
    obtain ⟨hfull, rest, hread⟩ := hok
    refine h.goes ⟨hfull, rest.drop n, ?_⟩ rfl
    rw [← hread, List.drop_left, List.append_assoc, List.take_append_drop]
  | @stored i read hphase hend =>
    have hok := h.requests i
    rw [hphase] at hok
    obtain ⟨hfull, hread⟩ := hok
    have hfits := h.fits
    have hsame : w.acked = w.file := h.staged.eq_of_length_le (hfits.trans hfull.ge)
    have hall : read = w.file := hread.eq_of_length_le hend
    exact h.goes ⟨hall.trans hsame.symm, (congrArg List.length (hall.trans hsame.symm)).trans hfull⟩ rfl
  | @committed i content hphase =>
    have hok := h.requests i
    rw [hphase] at hok
    exact h.goes hok rfl
  | abandon hphase hrow halive => exact h.goes trivial rfl
  | @drop i reply hphase =>
    have hok := h.requests i
    rw [hphase] at hok
    refine h.gone ⟨?_, rfl⟩ rfl
    cases reply with
    | finished content => exact hok
    | _ => trivial
  | @discard i reply hphase =>
    have hok := h.requests i
    rw [hphase] at hok
    obtain ⟨hok, hnone⟩ := hok
    have hcleared : Intact size { w with linked := false } := by
      refine h.apart rfl rfl rfl (fun _ => id) (fun hsome => ?_) fun _ _ _ => id
      rw [hnone] at hsome
      cases hsome
    refine hcleared.goes ?_ rfl
    cases reply with
    | finished content => exact hok
    | _ => trivial
  | stop hphase => exact h.goes trivial rfl
  | purgeExpired hrow hexpired =>
    exact h.apart rfl rfl rfl (fun _ hrow => absurd hrow (Option.some_ne_none _).symm)
      (fun hsome => by cases hsome) fun _ _ _ => id
  | sweep hrow =>
    refine h.apart rfl rfl rfl (fun _ => id) (fun hsome => ?_) fun _ _ _ => id
    rw [hrow] at hsome
    cases hsome

/-! ## Runs -/

theorem intact_begun (size now expiresAt : Nat) : Intact size (begun size now expiresAt) where
  received := by
    rintro _ ⟨⟩
    rfl
  staged := List.nil_prefix
  chained before o bytes after hlog := by
    cases before with
    | nil => cases hlog
    | cons _ _ => cases hlog
  promised := by
    rintro _ ⟨⟩
    rfl
  fits := Nat.zero_le size
  linked _ := rfl
  requests _ := trivial
  alone _ _ hi := by cases hi

theorem intact_run (h : Relation.ReflTransGen FreshStep (begun size now expiresAt) w) :
    Intact size w := by
  induction h with
  | refl => exact intact_begun size now expiresAt
  | tail _ hstep ih => exact intact_step ih hstep.1 hstep.2

/-- Every acknowledged append is in the file where it was sent to. -/
theorem Accounted.reads_back (h : Accounted w) {o : Nat} (hmem : (o, bytes) ∈ w.log) :
    (w.file.drop o).take bytes.length = bytes := by
  obtain ⟨before, after, hlog⟩ := List.append_of_mem hmem
  obtain ⟨rest, hfile⟩ := h.staged
  have hacked : w.acked = (before.map Prod.snd).flatten ++ (bytes ++ (after.map Prod.snd).flatten) := by
    unfold World.acked
    rw [hlog, List.map_append, List.flatten_append, List.map_cons, List.flatten_cons]
  rw [← hfile, hacked, List.append_assoc, h.chained before o bytes after hlog, List.drop_left,
    List.append_assoc, List.take_left]

/-- A claim taken with an old copy cuts off what is acknowledged. -/
theorem stale_cuts (h : Intact size w) (hstale : Stale w w') :
    ∃ w'', Step w' w'' ∧ w''.log = w.log ∧ ∃ n < w.acked.length, w''.file = w.acked.take n := by
  obtain ⟨i, copy, row, row', hphase, hrow, hclaim, hold, rfl⟩ := hstale
  obtain ⟨-, rfl⟩ := Row.claim_eq_some.mp hclaim
  have hok := h.requests i
  rw [hphase] at hok
  have hlt : copy.received < w.acked.length :=
    lt_of_le_of_ne hok.2 fun heq => hold (heq.trans (h.received row hrow).symm)
  refine ⟨_, .cut ((put_phase _ _ _ _).trans (if_pos rfl)) (h.linked (hrow ▸ rfl)), rfl,
    copy.received, hlt, ?_⟩
  obtain ⟨rest, hfile⟩ := h.staged
  show setLen copy.received w.file = _
  rw [take_setLen _ _ (hlt.le.trans h.staged.length_le), ← hfile, List.take_append_of_le_length hlt.le]

/-- **What a session is worth.** For any number of appends, finishes and abandons, interleaved in any
way with the sweeper and with requests that die: while no append takes the claim with an old copy, the
staged file begins with what the acknowledged appends sent, each where it was sent to, and `received`
is how much that is; one request writes at a time; and a finish stores just that, in full. The
condition is needed: after each claim taken with an old copy the next step may leave of the file no
more than a part of what is acknowledged, which the log still lists. -/
theorem session_intact (h : Relation.ReflTransGen FreshStep (begun size now expiresAt) w) :
    (∀ row, w.row = some row → row.received = w.acked.length ∧ row.received ≤ row.size) ∧
    w.acked <+: w.file ∧
    (∀ o bytes, (o, bytes) ∈ w.log → (w.file.drop o).take bytes.length = bytes) ∧
    (∀ i j, (w.phase i).due.isSome → (w.phase j).due.isSome → i = j) ∧
    (∀ i content, w.phase i = .answered (.finished content) →
      content = w.acked ∧ content.length = size) ∧
    ∀ w', Stale w w' → ∃ w'', Step w' w'' ∧ w''.log = w.log ∧
      ∃ n < w.acked.length, w''.file = w.acked.take n := by
  have hintact := intact_run h
  refine ⟨fun row hrow => ⟨hintact.received row hrow, ?_⟩, hintact.staged,
    fun o bytes hmem => hintact.reads_back hmem, hintact.alone, fun i content hphase => ?_,
    fun w' hstale => stale_cuts hintact hstale⟩
  · rw [hintact.received row hrow, hintact.promised row hrow]
    exact hintact.staged.length_le.trans hintact.fits
  · have hok := hintact.requests i
    rw [hphase] at hok
    exact hok

theorem log_grows (h : Step w w') : w.log <+: w'.log := by
  cases h with
  | record hphase hrow hrecord => exact List.prefix_append _ _
  | _ => exact List.prefix_rfl

/-- `received` never decreases. -/
theorem received_le (h : Relation.ReflTransGen FreshStep (begun size now expiresAt) w)
    (hrun : Relation.ReflTransGen FreshStep w w') (hrow : w.row = some row)
    (hrow' : w'.row = some row') : row.received ≤ row'.received := by
  have hlog : w.log <+: w'.log := by
    clear hrow hrow'
    induction hrun with
    | refl => exact List.prefix_rfl
    | tail _ hstep ih => exact ih.trans (log_grows hstep.1)
  obtain ⟨rest, hlog⟩ := hlog
  rw [(intact_run h).received row hrow, (intact_run (h.trans hrun)).received row' hrow']
  unfold World.acked
  rw [← hlog, List.map_append, List.flatten_append, List.length_append]
  exact Nat.le_add_right _ _

/-! ## A claim that was left -/

/-- No claim is held for longer than one lasts. -/
def Timely (w : World) : Prop := ∀ row, w.row = some row → ∀ held ∈ row.writing,
  held.2 ≤ w.now + CLAIM_MINUTES * 60

theorem timely_step (h : Timely w) (hstep : Step w w') : Timely w' := by
  cases hstep with
  | pass hdue =>
    exact fun row hrow held hheld => (h row hrow held hheld).trans (Nat.add_le_add_right
      (Nat.le_add_right _ _) _)
  | claim hphase hrow hclaim =>
    obtain ⟨-, rfl⟩ := Row.claim_eq_some.mp hclaim
    rintro _ ⟨⟩ _ ⟨⟩
    exact le_rfl
  | renew hphase hrow hrenew =>
    obtain ⟨-, rfl⟩ := Row.renew_eq_some.mp hrenew
    rintro _ ⟨⟩ _ ⟨⟩
    exact le_rfl
  | renewWriting hphase hrow hrenew =>
    obtain ⟨-, rfl⟩ := Row.renew_eq_some.mp hrenew
    rintro _ ⟨⟩ _ ⟨⟩
    exact le_rfl
  | release hphase =>
    intro row hrow held hheld
    obtain ⟨old, hold, rfl⟩ := Option.map_eq_some_iff.mp hrow
    unfold Row.release at hheld
    split_ifs at hheld with hmine
    · cases hheld
    · exact h old hold held hheld
  | record hphase hrow hrecord =>
    obtain ⟨-, rfl⟩ := Row.record_eq_some.mp hrecord
    rintro _ ⟨⟩ _ ⟨⟩
  | refuseOverflow hphase hrow hheld => exact fun _ hnone => absurd hnone (Option.some_ne_none _).symm
  | drop hphase => exact fun _ hnone => absurd hnone (Option.some_ne_none _).symm
  | purgeExpired hrow hexpired =>
    exact fun _ hnone => absurd hnone (Option.some_ne_none _).symm
  | _ => exact h

/-- **A request that died with the claim does not strand the session**: where nobody is writing, a
request that has loaded the row can take the claim, at the latest once a claim's time has passed. -/
theorem claimable (h : Relation.ReflTransGen Step (begun size now expiresAt) w)
    (hrow : w.row = some row) (hidle : ∀ i, (w.phase i).due = none)
    (hphase : w.phase i = .loaded copy) :
    ∃ w' row' due, Relation.ReflTransGen Step w w' ∧ w'.row = some row' ∧ row'.heldBy i ∧
      w'.phase i = .claimed copy due ∧ w'.file = w.file := by
  have htimely : Timely w := by
    clear hrow hidle hphase
    induction h with
    | refl => exact fun row hrow held hheld => by cases hrow; cases hheld
    | tail _ hstep ih => exact timely_step ih hstep
  have hlapsed : row.claim (w.now + (CLAIM_MINUTES * 60 + 1)) i = some { row with
      writing := some (i, w.now + (CLAIM_MINUTES * 60 + 1) + CLAIM_MINUTES * 60) } :=
    Row.claim_eq_some.mpr ⟨fun held hheld => by have := htimely row hrow held hheld; omega, rfl⟩
  have hpass : Step w { w with now := w.now + (CLAIM_MINUTES * 60 + 1) } := .pass fun j due hdue => by
    rw [hidle j] at hdue
    cases hdue
  exact ⟨_, _, _, .tail (.single hpass) (.claim hphase hrow hlapsed), rfl, rfl,
    (put_phase _ _ _ _).trans (if_pos rfl), rfl⟩

/-! ## A request that has the session to itself -/

/-- The session as a request that is alone with it sees it. -/
def World.session (w : World) : Option Session := w.row.map fun row =>
  ⟨row.size, row.received, w.file, row.writing.any fun held => decide (w.now ≤ held.2)⟩

abbrev FreshSteps : World → World → Prop := Relation.ReflTransGen FreshStep

theorem put_self (h : w.phase i = p) : w.put i p = w := by
  unfold World.put
  rw [← h, Function.update_eq_self]

theorem put_put (file : Bytes) : { s.put i p with file }.put i q = { s with file }.put i q :=
  congrArg (fun phase => { s with file, phase }) (Function.update_idem p q s.phase)

/-- A request that takes no claim, or takes it with what the row says, is fresh. -/
theorem fresh_put (hstep : Step w (s.put i p)) (hphase : s.phase = w.phase)
    (hp : ∀ taken due copy row, p = .claimed taken due → w.phase i = .loaded copy → w.row = some row →
      copy.received = row.received) : FreshStep w (s.put i p) := by
  refine ⟨hstep, ?_⟩
  rintro ⟨j, copy, row, row', hloaded, hrow, -, hold, heq⟩
  have hclaimed : (s.put i p).phase j = .claimed copy (w.now + CLAIM_MINUTES * 60) := by
    rw [heq]
    exact (put_phase _ _ _ _).trans (if_pos rfl)
  rw [put_phase, hphase] at hclaimed
  split_ifs at hclaimed with hj
  · exact hold (hp _ _ copy row hclaimed (hj ▸ hloaded) hrow)
  · rw [hloaded] at hclaimed
    cases hclaimed

theorem length_setLen (length : Nat) (file : Bytes) : (setLen length file).length = length := by
  unfold setLen
  rw [List.length_append, List.length_take, List.length_replicate]
  omega

/-- The loop of `write_at`, step by step. -/
theorem drain_steps (pieces : List Bytes) (hphase : w.phase i = .writing copy due sent)
    (hcursor : w.file.length = copy.received + sent.length) :
    (∀ file total, drain (copy.size - copy.received) pieces w.file sent.length = (file, some total) →
      ∃ sent', sent'.length = total ∧
        FreshSteps w ({ w with file }.put i (.writing copy due sent'))) ∧
    (∀ file, drain (copy.size - copy.received) pieces w.file sent.length = (file, none) →
      FreshSteps w ({ w with file }.put i .past)) := by
  induction pieces generalizing w sent with
  | nil =>
    refine ⟨fun file total h => ?_, fun file h => by cases h⟩
    obtain ⟨rfl, htotal⟩ := Prod.mk.inj h
    exact ⟨sent, Option.some.inj htotal, (put_self hphase).symm ▸ .refl⟩
  | cons chunk pieces ih =>
    rw [drain]
    by_cases hroom : copy.size - copy.received < sent.length + chunk.length
    · rw [if_pos hroom]
      refine ⟨fun file total h => (by cases h), fun file h => ?_⟩
      cases h
      exact .single (fresh_put (.pastTheLimit hphase hroom) rfl fun _ _ _ _ h => by cases h)
    · rw [if_neg hroom]
      have hgrown : writeAll w.file (copy.received + sent.length) chunk = w.file ++ chunk :=
        hcursor ▸ writeAll_end w.file chunk
      have hwrite := Step.write hphase (Nat.le_of_not_lt hroom)
      rw [hgrown] at hwrite
      have hfirst := fresh_put hwrite rfl fun _ _ _ _ h => by cases h
      obtain ⟨hsome, hnone⟩ := ih (w := { w with file := w.file ++ chunk }.put i
        (.writing copy due (sent ++ chunk))) ((put_phase _ _ _ _).trans (if_pos rfl)) (by
          show (w.file ++ chunk).length = _
          rw [List.length_append, List.length_append, hcursor, Nat.add_assoc])
      rw [List.length_append] at hsome hnone
      refine ⟨fun file total h => ?_, fun file h => ?_⟩
      · obtain ⟨sent', htotal, hsteps⟩ := hsome file total h
        exact ⟨sent', htotal, .head hfirst (put_put file ▸ hsteps)⟩
      · exact .head hfirst (put_put file ▸ hnone file h)

theorem put_same (w : World) (i : Nat) (p : Phase) : (w.put i p).phase i = p :=
  (put_phase _ _ _ _).trans (if_pos rfl)

/-- Request `i` comes from `w` to `p`, and no other moves. -/
structure Comes (w s : World) (i : Nat) (p : Phase) : Prop where
  run : FreshSteps w s
  now : s.now = w.now
  others : ∀ j, j ≠ i → s.phase j = w.phase j
  phase : s.phase i = p

theorem Comes.step {t : World} (h : Comes w s i q) (hstep : Step s (t.put i p))
    (hphase : t.phase = s.phase) (hnow : t.now = s.now)
    (hp : ∀ taken due copy row, p = .claimed taken due → s.phase i = .loaded copy → s.row = some row →
      copy.received = row.received) : Comes w (t.put i p) i p where
  run := h.run.tail (fresh_put hstep hphase hp)
  now := hnow.trans h.now
  others j hj := by
    rw [put_phase, if_neg hj, hphase]
    exact h.others j hj
  phase := put_same t i p

/-- A move that takes no claim. -/
theorem Comes.goes {t : World} (h : Comes w s i q) (hstep : Step s (t.put i p))
    (hphase : t.phase = s.phase) (hnow : t.now = s.now) (hp : ∀ taken due, p ≠ .claimed taken due) :
    Comes w (t.put i p) i p :=
  h.step hstep hphase hnow fun taken due _ _ heq => absurd heq (hp taken due)

/-- An append that finds the session free takes it, and cuts the file back. -/
theorem claim_comes (hrow : w.row = some row) (halive : w.now < row.expiresAt)
    (hlinked : w.linked = true) (hphase : w.phase i = .idle)
    (hfree : ∀ held ∈ row.writing, held.2 < w.now) :
    ∃ s, Comes w s i (.writing row (w.now + CLAIM_MINUTES * 60) []) ∧ s.linked = true ∧
      s.file = setLen row.received w.file ∧
      s.row = some { row with writing := some (i, w.now + CLAIM_MINUTES * 60) } := by
  have hidle : Comes w w i .idle := ⟨.refl, rfl, fun _ _ => rfl, hphase⟩
  have hload := hidle.goes (.load hphase hrow halive) rfl rfl fun _ _ h => by cases h
  have hclaim := hload.step (.claim hload.phase hrow (Row.claim_eq_some.mpr ⟨hfree, rfl⟩)) rfl rfl
    fun _ _ copy row' _ hcopy hrow' => by
      rw [put_same] at hcopy
      cases hcopy
      exact congrArg Row.received (Option.some.inj (hrow.symm.trans hrow'))
  have hcut := hclaim.goes (.cut hclaim.phase hlinked) rfl rfl fun _ _ h => by cases h
  exact ⟨_, hcut, hlinked, rfl, rfl⟩

/-- What a request leaves that had the session to itself. -/
structure Ran (w s : World) (i : Nat) (session : Option Session) (reply : Reply) : Prop
    extends Comes w s i (.answered reply) where
  session : s.session = session
  row : ∀ row', s.row = some row' → ∃ row, w.row = some row ∧ row'.expiresAt = row.expiresAt
  linked : s.row.isSome → s.linked = w.linked

theorem Comes.ran {t : World} {session : Option Session} {reply : Reply} (h : Comes w s i p)
    (hran : Ran s t i session reply) (hrow : w.row = some row) (hrow' : s.row = some row')
    (hsame : row'.expiresAt = row.expiresAt) (hlinked : s.linked = w.linked) :
    Ran w t i session reply where
  run := h.run.trans hran.run
  now := hran.now.trans h.now
  others j hj := (hran.others j hj).trans (h.others j hj)
  phase := hran.phase
  session := hran.session
  row last hlast := by
    obtain ⟨middle, hmiddle, heq⟩ := hran.row last hlast
    cases hrow'.symm.trans hmiddle
    exact ⟨row, hrow, heq.trans hsame⟩
  linked hsome := (hran.linked hsome).trans hlinked

/-- What becomes of a write, by what the body came to. -/
theorem record_ran {staged : Bytes} {body : Arriving} {session : Session} (hrow : w.row = some row)
    (hheld : row.heldBy i) (hphase : w.phase i = .writing copy due [])
    (hcopy : copy.received = row.received ∧ copy.size = row.size)
    (hfile : w.file = setLen copy.received staged) (hpromised : row.received ≤ row.size)
    (hterm : row.writing.any (fun held => decide (w.now ≤ held.2)) = true)
    (hsession : session = ⟨row.size, row.received, staged, false⟩) :
    ∃ s, Ran w s i (record session body.stop
        (writeAt staged copy.received (copy.size - copy.received) body)).1
      (.appended (record session body.stop
        (writeAt staged copy.received (copy.size - copy.received) body)).2) := by
  have hcursor : w.file.length = copy.received + ([] : Bytes).length := by
    rw [hfile, length_setLen]
    rfl
  obtain ⟨hsome, hnone⟩ := drain_steps body.pieces hphase hcursor
  rw [hfile] at hsome hnone
  have hput : ∀ {file : Bytes} {p : Phase}, FreshSteps w ({ w with file }.put i p) →
      Comes w ({ w with file }.put i p) i p := fun hrun =>
    ⟨hrun, rfl, fun j hj => (put_phase _ _ _ _).trans (if_neg hj), put_same _ _ _⟩
  unfold writeAt
  rcases hdrain : drain (copy.size - copy.received) body.pieces (setLen copy.received staged) 0 with
    ⟨file, _ | total⟩
  · have hpast := hput (hnone file hdrain)
    have hdropped := hpast.goes (.refuseOverflow hpast.phase hrow hheld) rfl rfl fun _ _ h => by
      cases h
    have hcleared := hdropped.goes (.discard hdropped.phase) rfl rfl fun _ _ h => by cases h
    exact ⟨_, hcleared, rfl, fun _ h => absurd h (Option.some_ne_none _).symm, fun h => by cases h⟩
  · obtain ⟨sent', htotal, hrun⟩ := hsome file total hdrain
    obtain ⟨-, -, hfits⟩ := drain_eq_some hdrain
    have hbound := hfits (Nat.zero_le _)
    have hwritten := hput hrun
    subst hsession
    dsimp only
    cases hstop : body.stop with
    | whole =>
      have hreached := hwritten.goes (.whole hwritten.phase) rfl rfl fun _ _ h => by cases h
      have hrecorded := hreached.goes (.record hreached.phase hrow (Row.record_eq_some.mpr
        ⟨⟨hheld, by omega⟩, rfl⟩)) rfl rfl fun _ _ h => by cases h
      rw [if_pos rfl, ← htotal]
      exact ⟨_, hrecorded, rfl, fun row' h => ⟨row, hrow, by cases h; rfl⟩, fun _ => rfl⟩
    | broken =>
      have hbroke := hwritten.goes (.fail (congrArg Phase.due hwritten.phase)) rfl rfl
        fun _ _ h => by cases h
      have hreleased := hbroke.goes (.release hbroke.phase) rfl rfl fun _ _ h => by cases h
      have hrow' : w.row.map (Row.release i) = some { row with writing := none } := by
        rw [hrow, Option.map_some, Row.release, if_pos hheld]
      rw [if_neg Stop.noConfusion]
      refine ⟨_, hreleased, ?_, fun row' h => ⟨row, hrow, ?_⟩, fun _ => rfl⟩
      · exact congrArg (Option.map _) hrow'
      · cases hrow'.symm.trans h
        rfl
    | dropped =>
      have hlost := hwritten.goes (.lost (congrArg Phase.due hwritten.phase)) rfl rfl
        fun _ _ h => by cases h
      rw [if_neg Stop.noConfusion]
      refine ⟨_, hlost, ?_, fun row' h => ⟨row, hrow, ?_⟩, fun _ => rfl⟩
      · refine (congrArg (Option.map _) hrow).trans (congrArg some ?_)
        exact congrArg (Session.mk row.size row.received file) hterm
      · cases hrow.symm.trans h
        rfl

/-- **An append that has the session to itself** does what `append` says. -/
theorem append_alone (hrow : w.row = some row) (halive : w.now < row.expiresAt)
    (hlinked : w.linked = true) (hphase : w.phase i = .idle) (hpromised : row.received ≤ row.size)
    (offset : Nat) (body : Arriving) : ∃ s session, w.session = some session ∧
      Ran w s i (append session offset body).1 (.appended (append session offset body).2) := by
  have hsession : w.session = some ⟨row.size, row.received, w.file,
      row.writing.any fun held => decide (w.now ≤ held.2)⟩ := congrArg (Option.map _) hrow
  have hidle : Comes w w i .idle := ⟨.refl, rfl, fun _ _ => rfl, hphase⟩
  have hsame : ∀ row', w.row = some row' → ∃ old, w.row = some old ∧
      row'.expiresAt = old.expiresAt := fun row' h => ⟨row', h, rfl⟩
  simp only [hsession, Option.some.injEq, exists_eq_left']
  unfold append
  dsimp only
  by_cases hoffset : offset = row.received
  · rw [if_neg (not_not.mpr hoffset)]
    by_cases hfree : ∀ held ∈ row.writing, held.2 < w.now
    · rw [Row.lapsed_iff.mpr hfree, if_neg Bool.false_ne_true]
      obtain ⟨t, hcomes, hlinked', hfile, hrow'⟩ := claim_comes hrow halive hlinked hphase hfree
      obtain ⟨s, hran⟩ := record_ran hrow' rfl hcomes.phase ⟨rfl, rfl⟩ hfile hpromised
        (decide_eq_true (hcomes.now.le.trans (Nat.le_add_right _ _))) rfl
      rw [hoffset]
      exact ⟨s, hcomes.ran hran hrow hrow' rfl (hlinked'.trans hlinked.symm)⟩
    · have hload := hidle.goes (.load hphase hrow halive) rfl rfl fun _ _ h => by cases h
      have hrefused := hload.goes (.claimRefused hload.phase fun row' hrow' => ?_) rfl rfl
        fun _ _ h => by cases h
      · rw [if_pos (Bool.not_eq_false _ ▸ fun h => hfree (Row.lapsed_iff.mp h))]
        exact ⟨_, hrefused, hsession, hsame, fun _ => rfl⟩
      · cases hrow.symm.trans hrow'
        exact if_neg hfree
  · rw [if_pos hoffset]
    have hmismatch := hidle.goes (.mismatch hphase hrow halive hoffset) rfl rfl
      fun _ _ h => by cases h
    exact ⟨_, hmismatch, hsession, hsame, fun _ => rfl⟩

/-- A finish that has the session to itself stores what `finish` says, and the session is gone. -/
theorem finish_alone {session : Session} {content : Bytes} (hrow : w.row = some row)
    (halive : w.now < row.expiresAt) (hlinked : w.linked = true) (hphase : w.phase i = .idle)
    (hsession : w.session = some session) (hfinish : finish session = some content) :
    ∃ s, Comes w s i (.answered (.finished content)) ∧ s.row = none := by
  have hidle : Comes w w i .idle := ⟨.refl, rfl, fun _ _ => rfl, hphase⟩
  have hparts := (congrArg (Option.map _) hrow).symm.trans hsession
  cases hparts
  unfold finish at hfinish
  split_ifs at hfinish with hwhole
  have hcontent : w.file = content := Option.some.inj hfinish
  have hload := hidle.goes (.finish hphase hrow halive (not_not.mp hwhole)) rfl rfl
    fun _ _ h => by cases h
  have hopened := hload.goes (.openStaged hload.phase hlinked) rfl rfl fun _ _ h => by cases h
  have hread := hopened.goes (.read (n := w.file.length) hopened.phase) rfl rfl fun _ _ h => by
    cases h
  have hall : [] ++ (w.file.drop ([] : Bytes).length).take w.file.length = content := by
    rw [List.nil_append, List.length_nil, List.drop_zero, List.take_length, hcontent]
  have hstored := hread.goes (.stored hread.phase (hcontent.trans hall.symm ▸ le_rfl)) rfl rfl
    fun _ _ h => by cases h
  have hcommitted := hstored.goes (.committed hstored.phase) rfl rfl fun _ _ h => by cases h
  have hdropped := hcommitted.goes (.drop hcommitted.phase) rfl rfl fun _ _ h => by cases h
  have hdone := hdropped.goes (.discard hdropped.phase) rfl rfl fun _ _ h => by cases h
  rw [← hall]
  exact ⟨_, hdone, rfl⟩

/-- Time passing takes no claim. -/
theorem fresh_pass {d : Nat} (hdue : ∀ j due, (w.phase j).due = some due → w.now + d ≤ due) :
    FreshStep w { w with now := w.now + d } := by
  refine ⟨.pass hdue, ?_⟩
  rintro ⟨j, copy, row, row', hloaded, -, -, -, heq⟩
  have hclaimed := congrFun (congrArg World.phase heq) j
  rw [put_same, show World.phase { w with now := w.now + d } j = w.phase j from rfl, hloaded] at hclaimed
  cases hclaimed

/-- Request 3 has written a byte when requests 4 and 5 load the row; 4 is refused, 3 dies with the
claim, and the claim's time passes. -/
theorem died_claiming : ∃ w, FreshSteps (begun 2 0 1000) w ∧
    w.row = some ⟨2, 0, 1000, some (3, 300)⟩ ∧ w.file = [9] ∧ w.now = 301 ∧ w.linked = true ∧
    (∀ j < 3, w.phase j = .idle) ∧ w.phase 3 = .answered .refused ∧
    w.phase 4 = .answered (.appended .alreadyWriting) ∧
    w.phase 5 = .loaded ⟨2, 0, 1000, some (3, 300)⟩ := by
  obtain ⟨s, h₃, hlinked, hfile, hrow⟩ := claim_comes (w := begun 2 0 1000) (i := 3) rfl (by decide) rfl
    rfl (by decide)
  have hwrite := h₃.goes (@Step.write s 3 _ _ _ [9] h₃.phase (by decide)) rfl rfl fun _ _ h => by cases h
  generalize hs₁ : World.put _ 3 _ = s₁ at hwrite
  have hrow₁ : s₁.row = some ⟨2, 0, 1000, some (3, 300)⟩ := hs₁ ▸ hrow
  have hlinked₁ : s₁.linked = true := hs₁ ▸ hlinked
  have hfile₁ : s₁.file = [9] := hs₁ ▸ congrArg (writeAll · 0 [9]) hfile
  have halive₁ : s₁.now < 1000 := hwrite.now.trans_lt (by decide)
  have hidle₄ : Comes s₁ s₁ 4 .idle := ⟨.refl, rfl, fun _ _ => rfl, hwrite.others 4 (by decide)⟩
  have hload₄ := hidle₄.goes (.load hidle₄.phase hrow₁ halive₁) rfl rfl fun _ _ h => by cases h
  have hrefused := hload₄.goes (.claimRefused hload₄.phase fun row h => ?_) rfl rfl
    fun _ _ h => by cases h
  · generalize hs₂ : World.put _ 4 _ = s₂ at hrefused
    have hrow₂ : s₂.row = some ⟨2, 0, 1000, some (3, 300)⟩ := hs₂ ▸ hrow₁
    have hidle₅ : Comes s₂ s₂ 5 .idle := ⟨.refl, rfl, fun _ _ => rfl,
      (hrefused.others 5 (by decide)).trans (hwrite.others 5 (by decide))⟩
    have hload₅ := hidle₅.goes (.load hidle₅.phase hrow₂ (hrefused.now.trans_lt halive₁)) rfl rfl
      fun _ _ h => by cases h
    have hwriting : (s₂.put 5 (.loaded ⟨2, 0, 1000, some (3, 300)⟩)).phase 3 = _ :=
      (hload₅.others 3 (by decide)).trans ((hrefused.others 3 (by decide)).trans hwrite.phase)
    have hstays : Comes _ _ 3 _ := ⟨.refl, rfl, fun _ _ => rfl, hwriting⟩
    have hdied := hstays.goes (.stop fun reply h => by rw [hwriting] at h; cases h) rfl rfl
      fun _ _ h => by cases h
    generalize hs₃ : World.put _ 3 _ = s₃ at hdied
    have hrow₃ : s₃.row = some ⟨2, 0, 1000, some (3, 300)⟩ := hs₃ ▸ hrow₂
    have hlinked₃ : s₃.linked = true := hs₃ ▸ hs₂ ▸ hlinked₁
    have hfile₃ : s₃.file = [9] := hs₃ ▸ hs₂ ▸ hfile₁
    have hnow₃ : s₃.now = 0 :=
      hdied.now.trans (hload₅.now.trans (hrefused.now.trans hwrite.now))
    have hphase₄ : s₃.phase 4 = .answered (.appended .alreadyWriting) :=
      (hdied.others 4 (by decide)).trans ((hload₅.others 4 (by decide)).trans hrefused.phase)
    have hphase₅ : s₃.phase 5 = .loaded ⟨2, 0, 1000, some (3, 300)⟩ :=
      (hdied.others 5 (by decide)).trans hload₅.phase
    have hothers : ∀ j, j ≠ 3 → j ≠ 4 → j ≠ 5 → s₃.phase j = .idle := fun j hj₃ hj₄ hj₅ =>
      (hdied.others j hj₃).trans ((hload₅.others j hj₅).trans
        ((hrefused.others j hj₄).trans (hwrite.others j hj₃)))
    have hpass := fresh_pass (w := s₃) (d := 301) fun j due hdue => by
      by_cases hj₃ : j = 3
      · rw [hj₃, hdied.phase] at hdue
        cases hdue
      by_cases hj₄ : j = 4
      · rw [hj₄, hphase₄] at hdue
        cases hdue
      by_cases hj₅ : j = 5
      · rw [hj₅, hphase₅] at hdue
        cases hdue
      · rw [hothers j hj₃ hj₄ hj₅] at hdue
        cases hdue
    refine ⟨{ s₃ with now := s₃.now + 301 }, (((hwrite.run.trans hrefused.run).trans
      hload₅.run).trans hdied.run).tail hpass, hrow₃, hfile₃, congrArg (· + 301) hnow₃, hlinked₃,
      fun j hj => hothers j ?_ ?_ ?_, hdied.phase, hphase₄, hphase₅⟩ <;> omega
  · rw [hload₄.now, hwrite.now]
    exact if_neg fun hlapsed => absurd (hlapsed (3, 300) (by cases hrow₁.symm.trans h; rfl)) (by decide)

/-- After a request that died with the claim, two appends of one byte each and the finish; between
them request 5 still has the row from before, and could take the claim with it. -/
theorem session_intact_twice : ∃ w₁ w, FreshSteps (begun 2 0 1000) w₁ ∧ (∃ w', Stale w₁ w') ∧
    FreshSteps w₁ w ∧ w.phase 2 = .answered (.finished [7, 8]) ∧ w.phase 3 = .answered .refused ∧
    w.phase 4 = .answered (.appended .alreadyWriting) ∧ w.acked = [7, 8] := by
  obtain ⟨w₀, hrun₀, hrow₀, hfile₀, hnow₀, hlinked₀, hidle, hphase₃, hphase₄, hphase₅⟩ := died_claiming
  obtain ⟨w₁, s₁, hs₁, hran₁⟩ := append_alone (i := 0) hrow₀ (by rw [hnow₀]; decide) hlinked₀
    (hidle 0 (by decide)) (by decide) 0 ⟨[[7]], .whole⟩
  have hsession₀ : w₀.session = some ⟨2, 0, [9], false⟩ := by
    unfold World.session
    rw [hrow₀, hfile₀, hnow₀]
    decide
  cases hsession₀.symm.trans hs₁
  have hsession₁ : w₁.session = some ⟨2, 1, [7], false⟩ := hran₁.session.trans (by decide)
  obtain ⟨row₁, hrow₁, hparts₁⟩ := Option.map_eq_some_iff.mp hsession₁
  have hreceived₁ : row₁.received = 1 := congrArg Session.received hparts₁
  have hsize₁ : row₁.size = 2 := congrArg Session.size hparts₁
  obtain ⟨_, hbegun, hexpires₁⟩ := hran₁.row row₁ hrow₁
  cases hrow₀.symm.trans hbegun
  have hnow₁ : w₁.now = 301 := hran₁.now.trans hnow₀
  have hstale : ∃ w', Stale w₁ w' := by
    refine ⟨_, 5, _, row₁, _, (hran₁.others 5 (by decide)).trans hphase₅, hrow₁,
      Row.claim_eq_some.mpr ⟨?_, rfl⟩, ?_, rfl⟩
    · exact Row.lapsed_iff.mp (congrArg Session.claimed hparts₁)
    · rw [hreceived₁]
      decide
  obtain ⟨w₂, s₂, hs₂, hran₂⟩ := append_alone (i := 1) hrow₁ (by rw [hnow₁, hexpires₁]; decide)
    (hran₁.linked (hrow₁ ▸ rfl) |>.trans hlinked₀)
    ((hran₁.others 1 (by decide)).trans (hidle 1 (by decide)))
    (hreceived₁.le.trans ((by decide : 1 ≤ 2).trans hsize₁.ge)) 1 ⟨[[8]], .whole⟩
  rw [hsession₁] at hs₂
  cases hs₂
  have hsession₂ : w₂.session = some ⟨2, 2, [7, 8], false⟩ := hran₂.session.trans (by decide)
  obtain ⟨row₂, hrow₂, -⟩ := Option.map_eq_some_iff.mp hsession₂
  obtain ⟨_, hrow₁', hexpires₂⟩ := hran₂.row row₂ hrow₂
  cases hrow₁.symm.trans hrow₁'
  have hlinked₂ : w₂.linked = true := (hran₂.linked (hrow₂ ▸ rfl)).trans
    ((hran₁.linked (hrow₁ ▸ rfl)).trans hlinked₀)
  obtain ⟨w₃, hcomes, -⟩ := finish_alone (i := 2) hrow₂
    (by rw [hran₂.now, hnow₁, hexpires₂, hexpires₁]; decide) hlinked₂
    ((hran₂.others 2 (by decide)).trans ((hran₁.others 2 (by decide)).trans (hidle 2 (by decide))))
    hsession₂ rfl
  have hothers : ∀ j, j ≠ 0 → j ≠ 1 → j ≠ 2 → w₃.phase j = w₀.phase j := fun j hj₀ hj₁ hj₂ =>
    (hcomes.others j hj₂).trans ((hran₂.others j hj₁).trans (hran₁.others j hj₀))
  have hrun₁ : FreshSteps (begun 2 0 1000) w₁ := hrun₀.trans hran₁.run
  have hrun : FreshSteps w₁ w₃ := hran₂.run.trans hcomes.run
  obtain ⟨-, -, -, -, hfinished, -⟩ := session_intact (hrun₁.trans hrun)
  exact ⟨w₁, w₃, hrun₁, hstale, hrun, hcomes.phase,
    (hothers 3 (by decide) (by decide) (by decide)).trans hphase₃,
    (hothers 4 (by decide) (by decide) (by decide)).trans hphase₄,
    (hfinished 2 [7, 8] hcomes.phase).1.symm⟩

end Stashden.Upload
