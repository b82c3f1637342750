import Stashden.Api.Rows

/-!
# Transactions (`api/src/error.rs` and the `Transaction` every function takes)

A function that runs statements is a `Tx`: it reads and writes the database, and an error leaves none
of its writes behind, which is the rollback. A statement computes the store it would leave and
`write` accepts it where every constraint holds, or answers the constraint that does not.

`Returns x db a db'` says that `x` answers `a` and leaves `db'`; `bind_returns` takes a block apart.
-/

namespace Stashden.Api

open Stashden.Core

/-- `ApiError`, as far as the modelled functions answer it. `answered` is a handler that answers a
status before it commits, which leaves its transaction rolled back; `rowNotFound` is the
`sqlx::Error` of a `fetch_one` without a row. -/
inductive ApiError where
  | notFound
  | forbidden
  | conflict (name : Str)
  | moveIntoSelf
  | alreadyGranted
  | acrossAccounts
  | locked (name : Str)
  | quotaExceeded
  | preconditionFailed
  | wrongKind (expected : String)
  | invalidPath (error : InvalidNodeName)
  | rowNotFound
  | answered (status : Nat)
  | database (violated : Constraint)
  deriving DecidableEq

abbrev Tx := StateT Db (Except ApiError)

namespace Tx

variable {α β : Type}

/-- The tables as the transaction sees them. -/
def read : Tx Store := fun db => .ok (db.toStore, db)

/-- A statement that leaves `s`. -/
def write (s : Store) : Tx Unit := fun _ =>
  match h : s.violated with
  | none => .ok ((), ⟨s, Store.violated_eq_none_iff.mp h⟩)
  | some c => .error (.database c)

def fail (e : ApiError) : Tx α := fun _ => .error e

/-- `map_err` on a statement that violated a constraint. -/
def mapViolated (f : Constraint → ApiError) (x : Tx α) : Tx α := fun db =>
  match x db with
  | .ok answer => .ok answer
  | .error (.database c) => .error (f c)
  | .error e => .error e

/-- A `SELECT`. -/
def query (g : Store → α) : Tx α := do
  let s ← read
  pure (g s)

/-- An `UPDATE`, a `DELETE`, or an `INSERT` with `ON CONFLICT DO NOTHING`. -/
def execute (h : Store → Store) : Tx Unit := do
  let s ← read
  write (h s)

/-- An `INSERT`; there is no store to leave where its key is taken. -/
def insertRow (h : Store → Option Store) : Tx Unit := do
  let s ← read
  match h s with
  | some s' => write s'
  | none => fail (.database .primaryKey)

/-- A new id (`Uuid::now_v7`). -/
def fresh : Tx Uuid := do
  let s ← read
  write { s with next := s.next + 1 }
  pure s.next

/-- `fetch_optional` and `ok_or`. -/
def orFail (e : ApiError) : Option α → Tx α
  | some a => pure a
  | none => fail e

/-- `for a in list { x(a).await? }`. -/
def forEach (x : α → Tx Unit) : List α → Tx Unit
  | [] => pure ()
  | a :: list => do
    x a
    forEach x list

/-! ## What a block returns -/

/-- `x` answers `a` and leaves `db'`. -/
def Returns (x : Tx α) (db : Db) (a : α) (db' : Db) : Prop := x db = .ok (a, db')

variable {x : Tx α} {f : α → Tx β} {db db' : Db} {a : α} {b : β} {s : Store} {e : ApiError}

@[simp] theorem bind_returns :
    (x >>= f).Returns db b db' ↔ ∃ a m, x.Returns db a m ∧ (f a).Returns m b db' := by
  show Except.bind (x db) (fun p => f p.1 p.2) = Except.ok (b, db') ↔ _
  unfold Returns
  cases hx : x db with
  | error e =>
    simp only [Except.bind, reduceCtorEq, false_and, exists_false]
  | ok p =>
    simp only [Except.bind, Except.ok.injEq, Prod.ext_iff]
    constructor
    · exact fun h => ⟨p.1, p.2, ⟨rfl, rfl⟩, h⟩
    · rintro ⟨a, m, ⟨rfl, rfl⟩, h⟩
      exact h

theorem bind_of_returns {m : Db} (h : x.Returns db a m) : (x >>= f) db = f a m := by
  show Except.bind (x db) (fun p => f p.1 p.2) = f a m
  rw [h]
  rfl

theorem bind_of_error (h : x db = .error e) : (x >>= f) db = .error e := by
  show Except.bind (x db) (fun p => f p.1 p.2) = .error e
  rw [h]
  rfl

@[simp] theorem pure_returns {v : α} : (pure v : Tx α).Returns db a db' ↔ a = v ∧ db = db' := by
  show Except.ok (v, db) = Except.ok (a, db') ↔ _
  constructor
  · intro h
    cases h
    exact ⟨rfl, rfl⟩
  · rintro ⟨rfl, rfl⟩
    rfl

@[simp] theorem map_returns {g : α → β} :
    (g <$> x).Returns db b db' ↔ ∃ a, x.Returns db a db' ∧ b = g a := by
  rw [map_eq_pure_bind, bind_returns]
  simp only [pure_returns]
  constructor
  · rintro ⟨a, m, hx, hb, rfl⟩
    exact ⟨a, hx, hb⟩
  · rintro ⟨a, hx, hb⟩
    exact ⟨a, db', hx, hb, rfl⟩

@[simp] theorem read_returns : read.Returns db s db' ↔ s = db.toStore ∧ db = db' := by
  show Except.ok (db.toStore, db) = Except.ok (s, db') ↔ _
  constructor
  · intro h
    cases h
    exact ⟨rfl, rfl⟩
  · rintro ⟨rfl, rfl⟩
    rfl

@[simp] theorem fail_returns : ¬ (fail e : Tx α).Returns db a db' := by
  show ¬ Except.error e = Except.ok (a, db')
  simp

/-- `if c { return Err(e) }`, passed. -/
theorem of_guard {c : Prop} [Decidable c] (h : (if c then fail e else x).Returns db a db') :
    ¬ c ∧ x.Returns db a db' := by
  by_cases hc : c
  · rw [if_pos hc] at h
    exact absurd h fail_returns
  · rw [if_neg hc] at h
    exact ⟨hc, h⟩

@[simp] theorem write_returns {u : Unit} : (write s).Returns db u db' ↔ db'.toStore = s := by
  unfold Returns write
  split
  · rename_i h
    constructor
    · intro he
      cases he
      rfl
    · rintro rfl
      rfl
  · rename_i c h
    constructor
    · intro he
      cases he
    · rintro rfl
      rw [Store.violated_eq_none_iff.mpr db'.sound] at h
      cases h

@[simp] theorem query_returns {g : Store → α} :
    (query g).Returns db a db' ↔ a = g db.toStore ∧ db = db' := by
  unfold query
  simp only [bind_returns, read_returns, pure_returns]
  constructor
  · rintro ⟨s, m, ⟨rfl, rfl⟩, rfl, rfl⟩
    exact ⟨rfl, rfl⟩
  · rintro ⟨rfl, rfl⟩
    exact ⟨_, _, ⟨rfl, rfl⟩, rfl, rfl⟩

@[simp] theorem execute_returns {h : Store → Store} {u : Unit} :
    (execute h).Returns db u db' ↔ db'.toStore = h db.toStore := by
  unfold execute
  simp only [bind_returns, read_returns, write_returns]
  constructor
  · rintro ⟨s, m, ⟨rfl, rfl⟩, h⟩
    exact h
  · exact fun h => ⟨_, _, ⟨rfl, rfl⟩, h⟩

@[simp] theorem insertRow_returns {h : Store → Option Store} {u : Unit} :
    (insertRow h).Returns db u db' ↔ h db.toStore = some db'.toStore := by
  unfold insertRow
  simp only [bind_returns, read_returns]
  constructor
  · rintro ⟨s, m, ⟨rfl, rfl⟩, hs⟩
    cases hh : h db.toStore with
    | none =>
      rw [hh] at hs
      exact absurd hs fail_returns
    | some s' =>
      rw [hh] at hs
      rw [write_returns.mp hs]
  · intro hs
    refine ⟨_, _, ⟨rfl, rfl⟩, ?_⟩
    rw [hs]
    exact write_returns.mpr rfl

@[simp] theorem mapViolated_returns {g : Constraint → ApiError} :
    (mapViolated g x).Returns db a db' ↔ x.Returns db a db' := by
  unfold Returns mapViolated
  cases hx : x db with
  | ok answer => rfl
  | error e => cases e <;> simp

theorem fresh_returns {n : Uuid} :
    fresh.Returns db n db' ↔
      n = db.next ∧ db'.toStore = { db.toStore with next := db.next + 1 } := by
  unfold fresh
  simp only [bind_returns, read_returns, write_returns, pure_returns]
  constructor
  · rintro ⟨s, m, ⟨rfl, rfl⟩, -, m', hm', rfl, rfl⟩
    exact ⟨rfl, hm'⟩
  · rintro ⟨rfl, h⟩
    exact ⟨_, _, ⟨rfl, rfl⟩, (), db', h, rfl, rfl⟩

@[simp] theorem orFail_returns {o : Option α} :
    (orFail e o).Returns db a db' ↔ o = some a ∧ db = db' := by
  cases o with
  | none => simp [orFail]
  | some v =>
    show (pure v : Tx α).Returns db a db' ↔ some v = some a ∧ db = db'
    rw [pure_returns, Option.some.injEq, eq_comm]

@[simp] theorem forEach_nil_returns {g : α → Tx Unit} {u : Unit} :
    (forEach g []).Returns db u db' ↔ db = db' := by
  simp [forEach]

@[simp] theorem forEach_cons_returns {g : α → Tx Unit} {list : List α} {u : Unit} :
    (forEach g (a :: list)).Returns db u db' ↔
      ∃ m, (g a).Returns db () m ∧ (forEach g list).Returns m () db' := by
  rw [forEach, bind_returns]
  exact ⟨fun ⟨_, m, h⟩ => ⟨m, h⟩, fun ⟨m, h⟩ => ⟨(), m, h⟩⟩

theorem forEach_map {g : β → Tx Unit} (f : α → β) (list : List α) :
    forEach (fun a => g (f a)) list = forEach g (list.map f) := by
  induction list with
  | nil => rfl
  | cons a list ih => rw [forEach, List.map_cons, forEach, ih]

/-! ## What every run of a block keeps -/

/-- `R` holds between the tables a run of `x` starts from and those it leaves. -/
def Keeps (R : Store → Store → Prop) (x : Tx α) : Prop :=
  ∀ ⦃db a db'⦄, x.Returns db a db' → R db.toStore db'.toStore

section Keeps

variable {R : Store → Store → Prop}

theorem keeps_fail : Keeps R (fail e : Tx α) := fun _ _ _ h => absurd h fail_returns

theorem keeps_execute {h : Store → Store} (hR : ∀ s, R s (h s)) : Keeps R (execute h) := by
  intro db a db' hx
  rw [execute_returns.mp hx]
  exact hR _

theorem keeps_insertRow {h : Store → Option Store} (hR : ∀ s s', h s = some s' → R s s') :
    Keeps R (insertRow h) := fun _ _ _ hx => hR _ _ (insertRow_returns.mp hx)

theorem keeps_ite {c : Prop} [Decidable c] {y : Tx α} (hx : Keeps R x) (hy : Keeps R y) :
    Keeps R (if c then x else y) := by
  split_ifs
  · exact hx
  · exact hy

theorem keeps_mapViolated {g : Constraint → ApiError} (hx : Keeps R x) :
    Keeps R (mapViolated g x) := fun _ _ _ h => hx (mapViolated_returns.mp h)

theorem keeps_fresh (hR : ∀ s : Store, R s { s with next := s.next + 1 }) : Keeps R fresh := by
  intro db a db' h
  rw [(fresh_returns.mp h).2]
  exact hR _

variable [IsPreorder Store R]

theorem keeps_pure {v : α} : Keeps R (pure v : Tx α) := by
  intro db a db' h
  rw [(pure_returns.mp h).2]
  exact refl _

theorem keeps_query {g : Store → α} : Keeps R (query g) := by
  intro db a db' h
  rw [(query_returns.mp h).2]
  exact refl _

theorem keeps_orFail {o : Option α} : Keeps R (orFail e o) := by
  intro db a db' h
  rw [(orFail_returns.mp h).2]
  exact refl _

theorem keeps_bind (hx : Keeps R x) (hf : ∀ a, Keeps R (f a)) : Keeps R (x >>= f) := by
  intro db b db' h
  obtain ⟨a, m, ha, hb⟩ := bind_returns.mp h
  exact IsTrans.trans _ _ _ (hx ha) (hf a hb)

theorem keeps_forEach {g : α → Tx Unit} (hg : ∀ a, Keeps R (g a)) :
    ∀ list : List α, Keeps R (forEach g list)
  | [] => keeps_pure
  | a :: list => keeps_bind (hg a) fun _ => keeps_forEach hg list

end Keeps

end Tx

namespace Db

theorem ext_store {db db' : Db} (h : db.toStore = db'.toStore) : db = db' := by
  cases db
  cases db'
  cases h
  rfl

end Db

end Stashden.Api
