import Stashden.Core.Name

/-!
# The guess limiter (`api/src/attempts.rs`)

Times are microseconds. The table has a row for each scope and subject at most, so it is a function of
them. `spend` reads and writes the row of its subject, and `purgeExpired` drops the rows nothing has
followed for a day; `Clocked` is a sequence of both under a clock that does not run back.

`rungs n` is how long `n` blocks last in a row from the first attempt on. A window of a day that holds
`n + 1` evaluated attempts holds the `n` blocks between them (`Climbed`), and 39 blocks are longer
than a day (`day_le_rungs`).

* `guesses_bounded`: the four laws of the limiter.
-/

namespace Stashden.Api

/-! ## The limiter -/

def FREE_ATTEMPTS : Nat := 10
def FIRST_BLOCK_SECONDS : Nat := 60
def LONGEST_BLOCK_SECONDS : Nat := 60 * 60
def MEMORY_SECONDS : Nat := 24 * 60 * 60

/-- `i32::MAX`. -/
def MOST_FAILURES : Nat := 2 ^ 31 - 1

/-- `Scope`. -/
inductive Scope where
  | login | share
  deriving DecidableEq

/-- A row of `attempts`, without its key. -/
structure Standing where
  failures : Nat
  lastAt : Int
  blockedUntil : Option Int
  deriving DecidableEq

/-- The table `attempts`. -/
abbrev Attempts := Scope × Str → Option Standing

/-- What an attempt is answered. -/
inductive Spent where
  | evaluated
  | tooManyAttempts (seconds : Int)
  deriving DecidableEq

/-- `make_interval(secs => seconds)`. -/
def interval (seconds : Nat) : Int := seconds * 1000000

/-- `blocked_for`, in seconds. -/
def blockedFor (recorded : Nat) : Nat :=
  if recorded < FREE_ATTEMPTS then 0
  else min (FIRST_BLOCK_SECONDS * 2 ^ min (recorded - FREE_ATTEMPTS) 31) LONGEST_BLOCK_SECONDS

namespace Standing

/-- `last_at > now() - make_interval(secs => MEMORY_SECONDS)`. -/
def remembered (row : Standing) (now : Int) : Bool :=
  decide (now - interval MEMORY_SECONDS < row.lastAt)

/-- `coalesce(blocked_until > now(), false)`. -/
def blocks (row : Standing) (now : Int) : Bool := row.blockedUntil.any fun until_ => now < until_

/-- `ceil(extract(epoch FROM (blocked_until - now())))`, at least one. -/
def secondsLeft (row : Standing) (now : Int) : Int :=
  max (row.blockedUntil.elim 0 fun until_ => -(-(until_ - now) / 1000000)) 1

end Standing

/-- How many failures `spend` records after a standing row. -/
def recordedAfter : Option Standing → Nat
  | some row => min (row.failures + 1) MOST_FAILURES
  | none => 1

/-- The row `spend` records. -/
def record (recorded : Nat) (now : Int) : Standing where
  failures := recorded
  lastAt := now
  blockedUntil := if 0 < blockedFor recorded then some (now + interval (blockedFor recorded)) else none

/-- `spend`. -/
def spend (table : Attempts) (subject : Scope × Str) (now : Int) : Spent × Attempts :=
  let standing := (table subject).filter fun row => row.remembered now
  match standing.filter fun row => row.blocks now with
  | some row => (.tooManyAttempts (row.secondsLeft now), table)
  | none =>
    (.evaluated, Function.update table subject (some (record (recordedAfter standing) now)))

/-- `forget`. -/
def forget (table : Attempts) (subject : Scope × Str) : Attempts := Function.update table subject none

/-- `purge_expired`. -/
def purgeAttempts (table : Attempts) (now : Int) : Attempts := fun subject =>
  (table subject).filter fun row => !decide (row.lastAt < now - interval MEMORY_SECONDS)

/-! ## Sequences of attempts -/

/-- What happens to the table at one moment. -/
inductive Moment where
  | attempt (subject : Scope × Str)
  | purge
  deriving DecidableEq

/-- What is answered, moment after moment, the attempts against one subject alone. -/
def answers (subject : Scope × Str) : Attempts → List (Moment × Int) → List (Int × Spent)
  | _, [] => []
  | table, (.purge, now) :: moments => answers subject (purgeAttempts table now) moments
  | table, (.attempt other, now) :: moments =>
    let spent := spend table other now
    if other = subject then (now, spent.1) :: answers subject spent.2 moments
    else answers subject spent.2 moments

/-- The table after the moments. -/
def after : Attempts → List (Moment × Int) → Attempts
  | table, [] => table
  | table, (.purge, now) :: moments => after (purgeAttempts table now) moments
  | table, (.attempt subject, now) :: moments => after (spend table subject now).2 moments

/-- The clock does not run back. -/
def Clocked (moments : List (Moment × Int)) : Prop := moments.Pairwise fun m n => m.2 ≤ n.2

/-- The moments without the runs of `purge_expired`. -/
def unpurged (moments : List (Moment × Int)) : List (Moment × Int) :=
  moments.filter fun m => m.1 ≠ .purge

/-- When the attempts were evaluated. -/
def evaluatedAt (answered : List (Int × Spent)) : List Int :=
  (answered.filter fun a => a.2 = .evaluated).map Prod.fst

variable {subject other : Scope × Str} {table table' : Attempts} {now clock w : Int}
  {row : Standing} {past : List Int} {moments : List (Moment × Int)}

/-! ## What one moment does to a row -/

theorem purgeAttempts_apply : purgeAttempts table now subject =
    (table subject).filter fun row => !decide (row.lastAt < now - interval MEMORY_SECONDS) := rfl

/-- An attempt finds a row that stands and blocks it, or records the next one. -/
theorem spend_cases (table : Attempts) (subject : Scope × Str) (now : Int) :
    (∃ row, table subject = some row ∧ row.remembered now = true ∧ row.blocks now = true ∧
      spend table subject now = (.tooManyAttempts (row.secondsLeft now), table)) ∨
    ((∀ row, table subject = some row → row.remembered now = true → row.blocks now = false) ∧
      spend table subject now = (.evaluated, Function.update table subject (some (record
        (recordedAfter ((table subject).filter fun row => row.remembered now)) now)))) := by
  cases hs : ((table subject).filter fun row => row.remembered now).filter
      fun row => row.blocks now with
  | some row =>
    obtain ⟨hstanding, hblocks⟩ := Option.filter_eq_some_iff.mp hs
    obtain ⟨hrow, hremembered⟩ := Option.filter_eq_some_iff.mp hstanding
    refine Or.inl ⟨row, hrow, hremembered, hblocks, ?_⟩
    unfold spend
    simp only [hs]
  | none =>
    refine Or.inr ⟨fun row hrow hremembered => ?_, ?_⟩
    · have hno := Option.filter_eq_none_iff.mp hs row
        (Option.filter_eq_some_iff.mpr ⟨hrow, hremembered⟩)
      simpa using hno
    · unfold spend
      simp only [hs]

/-- A refused attempt leaves the table as it is. -/
theorem spend_refused (h : (spend table subject now).1 ≠ .evaluated) :
    (spend table subject now).2 = table := by
  obtain ⟨row, -, -, -, hspend⟩ | ⟨-, hspend⟩ := spend_cases table subject now
  · rw [hspend]
  · rw [hspend] at h
    exact absurd rfl h

/-- An attempt touches the row of its subject alone. -/
theorem spend_of_ne (h : subject ≠ other) : (spend table other now).2 subject = table subject := by
  obtain ⟨row, -, -, -, hspend⟩ | ⟨-, hspend⟩ := spend_cases table other now
  · rw [hspend]
  · rw [hspend]
    exact Function.update_of_ne h _ _

theorem remembered_of_le (h : row.remembered now = true) (hclock : clock ≤ now) :
    row.remembered clock = true := by
  unfold Standing.remembered at h ⊢
  rw [decide_eq_true_eq] at h ⊢
  omega

/-! ## Purging changes no answer -/

/-- The rows a later attempt would find are the same. -/
def Alike (clock : Int) (row row' : Option Standing) : Prop :=
  (row.filter fun r => r.remembered clock) = row'.filter fun r => r.remembered clock

/-- Filtering by less first changes nothing. -/
theorem filter_filter_of_imp {p q : Standing → Bool} (h : ∀ r, q r = true → p r = true)
    (o : Option Standing) : (o.filter p).filter q = o.filter q := by
  cases o with
  | none => rfl
  | some r =>
    cases hq : q r with
    | false => cases hp : p r <;> simp [Option.filter, hp, hq]
    | true => simp [Option.filter, h r hq]

theorem Alike.later {row row' : Option Standing} (h : Alike clock row row') (hle : clock ≤ now) :
    Alike now row row' := by
  have key := filter_filter_of_imp fun (r : Standing) (hr : r.remembered now = true) =>
    remembered_of_le hr hle
  unfold Alike at h ⊢
  rw [← key row, ← key row', h]

theorem alike_purge (h : Alike now (table subject) (table' subject)) :
    Alike now (purgeAttempts table now subject) (table' subject) := by
  unfold Alike at h ⊢
  rw [purgeAttempts_apply, filter_filter_of_imp, h]
  intro r hr
  unfold Standing.remembered at hr
  rw [decide_eq_true_eq] at hr
  simp only [Bool.not_eq_true', decide_eq_false_iff_not]
  omega

/-- Attempts on rows that are alike are answered the same, and leave rows that are alike. -/
theorem alike_spend (h : Alike now (table subject) (table' subject)) :
    (spend table subject now).1 = (spend table' subject now).1 ∧
      Alike now ((spend table subject now).2 subject) ((spend table' subject now).2 subject) := by
  unfold Alike at h
  unfold spend
  simp only [← h]
  cases ((table subject).filter fun r => r.remembered now).filter fun r => r.blocks now with
  | some row => exact ⟨rfl, h⟩
  | none =>
    refine ⟨rfl, ?_⟩
    simp only [Alike, Function.update_self]

theorem answers_unpurged (hclock : Clocked moments) (hfrom : ∀ m ∈ moments, clock ≤ m.2)
    (h : Alike clock (table subject) (table' subject)) :
    answers subject table moments = answers subject table' (unpurged moments) := by
  induction moments generalizing clock table table' with
  | nil => rfl
  | cons m moments ih =>
    obtain ⟨what, now⟩ := m
    obtain ⟨hlater, hrest⟩ := List.pairwise_cons.mp hclock
    have hnow := h.later (hfrom _ List.mem_cons_self)
    cases what with
    | purge => exact ih hrest hlater (alike_purge hnow)
    | attempt other =>
      have hun : unpurged ((.attempt other, now) :: moments) =
          (.attempt other, now) :: unpurged moments := rfl
      rw [hun, answers, answers]
      by_cases hs : other = subject
      · subst hs
        obtain ⟨hsame, hleft⟩ := alike_spend hnow
        rw [if_pos rfl, if_pos rfl, hsame, ih hrest hlater hleft]
      · rw [if_neg hs, if_neg hs]
        refine ih hrest hlater ?_
        rw [spend_of_ne (Ne.symm hs), spend_of_ne (Ne.symm hs)]
        exact hnow

/-! ## The ladder -/

/-- How many seconds the first blocks last together. -/
def rungs : Nat → Nat
  | 0 => 0
  | n + 1 => rungs n + blockedFor (n + 1)

theorem blockedFor_mono {m n : Nat} (h : m ≤ n) : blockedFor m ≤ blockedFor n := by
  unfold blockedFor
  split_ifs with hm hn
  · exact le_refl 0
  · exact Nat.zero_le _
  · omega
  · have hpow : 2 ^ min (m - FREE_ATTEMPTS) 31 ≤ 2 ^ min (n - FREE_ATTEMPTS) 31 :=
      Nat.pow_le_pow_right (by omega) (by omega)
    have hmul := Nat.mul_le_mul_left FIRST_BLOCK_SECONDS hpow
    omega

theorem blockedFor_le (n : Nat) : blockedFor n ≤ LONGEST_BLOCK_SECONDS := by
  unfold blockedFor
  split_ifs
  · exact Nat.zero_le _
  · exact Nat.min_le_right _ _

theorem forty_le_most : 40 ≤ MOST_FAILURES := by decide

theorem lt_recordedAfter {n : Nat} (h : n ≤ row.failures) (hn : n < 40) :
    n < recordedAfter (some row) :=
  Nat.le_min.mpr ⟨Nat.succ_le_succ h, (Nat.succ_le_of_lt hn).trans forty_le_most⟩

theorem rungs_mono {m n : Nat} (h : m ≤ n) : rungs m ≤ rungs n := by
  induction h with
  | refl => exact le_refl _
  | step _ ih => exact ih.trans (Nat.le_add_right _ _)

/-- 39 blocks are longer than a day. -/
theorem day_le_rungs : MEMORY_SECONDS ≤ rungs 39 := by decide

theorem interval_le {m n : Nat} (h : m ≤ n) : interval m ≤ interval n := by
  unfold interval
  omega

theorem interval_add (m n : Nat) : interval (m + n) = interval m + interval n := by
  unfold interval
  push_cast
  ring

/-! ## What a window holds -/

/-- How many of the times are in the day from `w` on. -/
def inDayFrom (w : Int) (past : List Int) : Nat :=
  (past.filter fun t => decide (w ≤ t) && decide (t < w + interval MEMORY_SECONDS)).length

/-- What is known of a row when `past` are the evaluated attempts before `clock`. -/
structure Climbed (past : List Int) (row : Option Standing) (clock : Int) : Prop where
  bounded : ∀ w, inDayFrom w past < 40
  gone : row = none → ∀ t ∈ past, t + interval MEMORY_SECONDS ≤ clock
  last : ∀ r ∈ row, r.lastAt ∈ past ∧ ∀ t ∈ past, t ≤ r.lastAt
  before : ∀ t ∈ past, t ≤ clock
  recorded : ∀ r ∈ row, r = record r.failures r.lastAt
  climbed : ∀ r ∈ row, ∀ w, w ≤ r.lastAt → r.lastAt < w + interval MEMORY_SECONDS →
    inDayFrom w past ≤ r.failures ∧ w + interval (rungs (inDayFrom w past - 1)) ≤ r.lastAt

theorem Climbed.later {row : Option Standing} (h : Climbed past row clock) (hle : clock ≤ now) :
    Climbed past row now where
  bounded := h.bounded
  gone := fun hrow t ht => (h.gone hrow t ht).trans hle
  last := h.last
  before := fun t ht => (h.before t ht).trans hle
  recorded := h.recorded
  climbed := h.climbed

theorem climbed_purge (h : Climbed past (table subject) now) :
    Climbed past (purgeAttempts table now subject) now := by
  have hsub : ∀ r ∈ purgeAttempts table now subject, r ∈ table subject := fun r hr =>
    (Option.filter_eq_some_iff.mp hr).1
  refine ⟨h.bounded, fun hrow t ht => ?_, fun r hr => h.last r (hsub r hr), h.before,
    fun r hr => h.recorded r (hsub r hr), fun r hr => h.climbed r (hsub r hr)⟩
  cases hr : table subject with
  | none => exact h.gone hr t ht
  | some r =>
    have hdue := Option.filter_eq_none_iff.mp (purgeAttempts_apply.symm.trans hrow) r hr
    have hle := (h.last r hr).2 t ht
    simp only [Bool.not_eq_true', decide_eq_false_iff_not, not_not] at hdue
    omega

theorem inDayFrom_append (w : Int) (past : List Int) (now : Int) :
    inDayFrom w (past ++ [now]) =
      inDayFrom w past + if w ≤ now ∧ now < w + interval MEMORY_SECONDS then 1 else 0 := by
  unfold inDayFrom
  rw [List.filter_append, List.length_append]
  split_ifs with hw
  · simp [hw]
  · rw [List.filter_cons_of_neg (by simpa using hw)]
    rfl

theorem inDayFrom_eq_zero (h : ∀ t ∈ past, t < w) : inDayFrom w past = 0 := by
  unfold inDayFrom
  rw [List.length_eq_zero_iff, List.filter_eq_nil_iff]
  intro t ht hin
  have hlt := h t ht
  simp only [Bool.and_eq_true, decide_eq_true_eq] at hin
  omega

/-- An evaluated attempt that found `n` others in the window that starts at `w`. -/
theorem bounded_of_rungs {n : Nat} (hin : now < w + interval MEMORY_SECONDS)
    (hrungs : w + interval (rungs n) ≤ now) : n + 1 < 40 := by
  by_contra hmany
  have hday := interval_le (day_le_rungs.trans (rungs_mono (show 39 ≤ n by omega)))
  omega

/-- **An evaluated attempt climbs one block further.** -/
theorem climbed_record (h : Climbed past (table subject) now)
    (hopen : ∀ row, table subject = some row → row.remembered now = true →
      row.blocks now = false) :
    Climbed (past ++ [now]) (some (record (recordedAfter ((table subject).filter
      fun row => row.remembered now)) now)) now := by
  -- what the window holds once this attempt is in it, by whether a block came before it
  have key : ∀ w, w ≤ now → now < w + interval MEMORY_SECONDS →
      inDayFrom w past + 1 ≤ recordedAfter ((table subject).filter fun row => row.remembered now) ∧
        w + interval (rungs (inDayFrom w past)) ≤ now := by
    intro w hw hday
    have hfirst : inDayFrom w past = 0 → inDayFrom w past + 1 ≤
        recordedAfter ((table subject).filter fun row => row.remembered now) ∧
        w + interval (rungs (inDayFrom w past)) ≤ now := by
      intro hzero
      rw [hzero]
      refine ⟨?_, by simpa [rungs, interval] using hw⟩
      cases (table subject).filter fun row => row.remembered now with
      | none => exact le_refl 1
      | some r =>
        exact lt_recordedAfter (Nat.zero_le _) (by decide)
    cases hs : (table subject).filter fun row => row.remembered now with
    | none =>
      rw [hs] at hfirst
      refine hfirst (inDayFrom_eq_zero fun t ht => ?_)
      cases hr : table subject with
      | none =>
        have hgone := h.gone hr t ht
        omega
      | some r =>
        have hforgot := Option.filter_eq_none_iff.mp hs r hr
        unfold Standing.remembered at hforgot
        rw [decide_eq_true_eq] at hforgot
        have hle := (h.last r hr).2 t ht
        omega
    | some r =>
      rw [hs] at hfirst
      obtain ⟨hr, hremembered⟩ := Option.filter_eq_some_iff.mp hs
      by_cases hwr : w ≤ r.lastAt
      · have hnow := h.before _ (h.last r hr).1
        obtain ⟨hcount, hrungs⟩ := h.climbed r hr w hwr (by omega)
        have hfew := h.bounded w
        have hpos : 0 < inDayFrom w past := by
          refine List.length_pos_of_mem (a := r.lastAt) (List.mem_filter.mpr ⟨(h.last r hr).1, ?_⟩)
          simp only [Bool.and_eq_true, decide_eq_true_eq]
          omega
        -- the block that was served before this attempt
        have hblock : r.lastAt + interval (blockedFor r.failures) ≤ now := by
          have hno := hopen r hr hremembered
          rw [h.recorded r hr] at hno
          simp only [Standing.blocks, record] at hno
          split_ifs at hno with hb
          · simpa using hno
          · rw [Nat.eq_zero_of_not_pos hb]
            simpa [interval] using hnow
        have hstep : rungs (inDayFrom w past) =
            rungs (inDayFrom w past - 1) + blockedFor (inDayFrom w past) := by
          obtain ⟨n, hn⟩ := Nat.exists_eq_succ_of_ne_zero (Nat.pos_iff_ne_zero.mp hpos)
          rw [hn]
          rfl
        have hmono := interval_le (blockedFor_mono hcount)
        rw [hstep, interval_add]
        exact ⟨lt_recordedAfter hcount hfew, by omega⟩
      · exact hfirst (inDayFrom_eq_zero fun t ht => by have := (h.last r hr).2 t ht; omega)
  have hpast : ∀ t ∈ past ++ [now], t ≤ now := fun t ht => by
    rcases List.mem_append.mp ht with ht | ht
    · exact h.before t ht
    · exact (List.mem_singleton.mp ht).le
  refine ⟨fun w => ?_, fun hrow => absurd hrow (by simp), fun r hr => ?_, hpast, fun r hr => ?_,
    fun r hr w hw hday => ?_⟩
  · rw [inDayFrom_append]
    split_ifs with hin
    · exact bounded_of_rungs hin.2 (key w hin.1 hin.2).2
    · exact h.bounded w
  · cases hr
    exact ⟨List.mem_append_right _ List.mem_cons_self, hpast⟩
  · cases hr
    rfl
  · cases hr
    rw [inDayFrom_append, if_pos ⟨hw, hday⟩]
    exact key w hw hday

/-- **What is known of a row holds after every sequence of moments.** -/
theorem climbed_after {stop : Int} (hclock : Clocked moments) (hfrom : ∀ m ∈ moments, clock ≤ m.2)
    (hstop : ∀ m ∈ moments, m.2 ≤ stop) (hle : clock ≤ stop)
    (h : Climbed past (table subject) clock) :
    Climbed (past ++ evaluatedAt (answers subject table moments)) (after table moments subject)
      stop := by
  induction moments generalizing past clock table with
  | nil =>
    show Climbed (past ++ []) (table subject) stop
    rw [List.append_nil]
    exact h.later hle
  | cons m moments ih =>
    obtain ⟨what, now⟩ := m
    obtain ⟨hlater, hrest⟩ := List.pairwise_cons.mp hclock
    have hnow := h.later (hfrom _ List.mem_cons_self)
    have hend := hstop _ List.mem_cons_self
    have hstops : ∀ m ∈ moments, m.2 ≤ stop := fun m hm => hstop m (List.mem_cons_of_mem _ hm)
    cases what with
    | purge => exact ih hrest hlater hstops hend (climbed_purge hnow)
    | attempt other =>
      rw [answers, after]
      by_cases hs : other = subject
      · subst hs
        rw [if_pos rfl]
        obtain ⟨r, -, -, -, hspend⟩ | ⟨hopen, hspend⟩ := spend_cases table other now
        · rw [hspend]
          exact ih hrest hlater hstops hend hnow
        · rw [hspend]
          have hafter : Climbed (past ++ [now]) (Function.update table other (some (record
              (recordedAfter ((table other).filter fun row => row.remembered now)) now)) other)
              now := by
            rw [Function.update_self]
            exact climbed_record hnow hopen
          have hrun := ih hrest hlater hstops hend hafter
          rw [List.append_assoc] at hrun
          exact hrun
      · rw [if_neg hs]
        refine ih hrest hlater hstops hend ?_
        rw [spend_of_ne (Ne.symm hs)]
        exact hnow

/-- An hour after the last evaluated attempt no block is in force. -/
theorem Climbed.evaluated (h : Climbed past (table subject) now)
    (hhour : ∀ t ∈ past, t + interval LONGEST_BLOCK_SECONDS ≤ now) :
    (spend table subject now).1 = .evaluated := by
  obtain ⟨r, hr, -, hblocks, -⟩ | ⟨-, hspend⟩ := spend_cases table subject now
  · have hlast := hhour _ (h.last r hr).1
    have hlong := interval_le (blockedFor_le r.failures)
    rw [h.recorded r hr] at hblocks
    simp only [Standing.blocks, record] at hblocks
    split_ifs at hblocks with hb
    · simp only [Option.any_some, decide_eq_true_eq] at hblocks
      omega
    · exact absurd hblocks (by simp)
  · rw [hspend]

/-- The first moment of the clock. -/
theorem exists_first (hclock : Clocked moments) : ∃ first, ∀ m ∈ moments, first ≤ m.2 := by
  cases moments with
  | nil => exact ⟨0, fun m hm => absurd hm List.not_mem_nil⟩
  | cons m moments =>
    refine ⟨m.2, fun n hn => ?_⟩
    rcases List.mem_cons.mp hn with rfl | hn
    · exact le_refl _
    · exact (List.pairwise_cons.mp hclock).1 n hn

/-- The last moment of the clock. -/
theorem exists_last (hclock : Clocked moments) : ∃ stop, ∀ m ∈ moments, m.2 ≤ stop := by
  induction moments using List.reverseRecOn with
  | nil => exact ⟨0, fun m hm => absurd hm List.not_mem_nil⟩
  | append_singleton moments m _ =>
    refine ⟨m.2, fun n hn => ?_⟩
    rcases List.mem_append.mp hn with hn | hn
    · exact (List.pairwise_append.mp hclock).2.2 n hn m List.mem_cons_self
    · rw [List.mem_singleton.mp hn]

/-- **The limiter bounds guesses.** Of the attempts against a subject nothing stands against, under a
clock that does not run back: fewer than 40 are evaluated in any day, whatever is purged in between
changes no answer, and one made an hour after the last evaluated one is evaluated; a refused attempt
leaves every row as it is. -/
theorem guesses_bounded (hnone : table subject = none) (hclock : Clocked moments) :
    (∀ w, inDayFrom w (evaluatedAt (answers subject table moments)) < 40) ∧
    (∀ table subject now, (spend table subject now).1 ≠ .evaluated →
      (spend table subject now).2 = table) ∧
    (∀ moments', Clocked moments' → unpurged moments' = unpurged moments →
      answers subject table moments' = answers subject table moments) ∧
    ∀ now, (∀ m ∈ moments, m.2 ≤ now) →
      (∀ t ∈ evaluatedAt (answers subject table moments),
        t + interval LONGEST_BLOCK_SECONDS ≤ now) →
      (spend (after table moments) subject now).1 = .evaluated := by
  obtain ⟨first, hfirst⟩ := exists_first hclock
  have hrun : ∀ stop, (∀ m ∈ moments, m.2 ≤ stop) →
      Climbed (evaluatedAt (answers subject table moments)) (after table moments subject) stop := by
    intro stop hstop
    have hstart : Climbed [] (table subject) (min first stop) :=
      ⟨fun w => Nat.zero_lt_succ 39, fun _ t ht => absurd ht List.not_mem_nil, by simp [hnone],
        fun t ht => absurd ht List.not_mem_nil, by simp [hnone], by simp [hnone]⟩
    exact climbed_after hclock (fun m hm => (min_le_left _ _).trans (hfirst m hm)) hstop
      (min_le_right _ _) hstart
  refine ⟨fun w => ?_, fun _ _ _ h => spend_refused h, fun moments' hclock' hsame => ?_,
    fun now hnow hhour => (hrun now hnow).evaluated hhour⟩
  · obtain ⟨stop, hstop⟩ := exists_last hclock
    exact (hrun stop hstop).bounded w
  · obtain ⟨first', hfirst'⟩ := exists_first hclock'
    rw [answers_unpurged hclock' hfirst' rfl, answers_unpurged hclock hfirst rfl, hsame]

theorem guesses_bounded_twice :
    (∀ w, inDayFrom w (evaluatedAt (answers (.login, []) (fun _ => none)
      [(.attempt (.login, []), 0), (.purge, 5), (.attempt (.login, []), 10)])) < 40) ∧
    (spend (after (fun _ => none)
      [(.attempt (.login, []), 0), (.purge, 5), (.attempt (.login, []), 10)]) (.login, [])
      (interval 3601)).1 = .evaluated := by
  have h := @guesses_bounded (.login, []) (fun _ => none)
    [(.attempt (.login, []), 0), (.purge, 5), (.attempt (.login, []), 10)] rfl
    (by simp [Clocked])
  exact ⟨h.1, h.2.2.2 (interval 3601) (by decide) (by decide)⟩

end Stashden.Api
