import Mathlib.Tactic

/-!
# Recursive queries

`recursive table joins seed` is what `WITH RECURSIVE` computes, cycles cut: the seed, and round after
round the rows of the table joined with a row found before. As many rounds as the table has rows are
enough, for a round that finds nothing is the last (`closed_rounds`), so the rows found are those a
chain of joins leads to (`mem_recursive_iff`).
-/

namespace Stashden.Lib

universe u

variable {α : Type u} [DecidableEq α] (table : List α) (joins : α → α → Bool)

/-- The rows of the table joined with one that was found, and not found yet. -/
def fresh (found : List α) : List α :=
  table.filter fun x => !decide (x ∈ found) && found.any fun y => joins y x

/-- Some rounds of the query. -/
def rounds : Nat → List α → List α
  | 0, found => found
  | n + 1, found => rounds n (found ++ fresh table joins found)

/-- What the query finds. -/
def recursive (seed : List α) : List α := rounds table joins table.length seed

variable {table joins} {found seed : List α} {x y : α} {n : Nat}

theorem mem_fresh : x ∈ fresh table joins found ↔
    x ∈ table ∧ x ∉ found ∧ ∃ y ∈ found, joins y x = true := by
  simp [fresh]

/-- Nothing joined with a row found is missing. -/
def Closed (table : List α) (joins : α → α → Bool) (found : List α) : Prop :=
  ∀ y ∈ found, ∀ x ∈ table, joins y x = true → x ∈ found

theorem closed_of_fresh_nil (h : fresh table joins found = []) : Closed table joins found := by
  intro y hy x hx hj
  by_contra hno
  have hmem : x ∈ fresh table joins found := mem_fresh.mpr ⟨hx, hno, y, hy, hj⟩
  rw [h] at hmem
  exact List.not_mem_nil hmem

theorem rounds_of_fresh_nil (h : fresh table joins found = []) : rounds table joins n found = found := by
  induction n with
  | zero => rfl
  | succ n ih => rw [rounds, h, List.append_nil, ih]

theorem subset_rounds : found ⊆ rounds table joins n found := by
  induction n generalizing found with
  | zero => exact List.Subset.refl _
  | succ n ih => exact fun x hx => ih (List.mem_append_left _ hx)

/-- Every round that finds something leaves fewer rows to find. -/
theorem missing_lt (h : fresh table joins found ≠ []) :
    (table.filter fun x => decide (x ∉ found ++ fresh table joins found)).length <
      (table.filter fun x => decide (x ∉ found)).length := by
  obtain ⟨x, hx⟩ := List.exists_mem_of_ne_nil _ h
  obtain ⟨hxt, hxf, -⟩ := mem_fresh.mp hx
  have hsub : (table.filter fun x => decide (x ∉ found ++ fresh table joins found)) =
      (table.filter fun x => decide (x ∉ found)).filter
        fun x => decide (x ∉ fresh table joins found) := by
    rw [List.filter_filter]
    refine List.filter_congr fun y _ => ?_
    simp [List.mem_append, Bool.and_comm]
  rw [hsub, List.length_filter_lt_length_iff_exists]
  exact ⟨x, List.mem_filter.mpr ⟨hxt, by simpa using hxf⟩, by simpa using hx⟩

theorem closed_rounds (h : (table.filter fun x => decide (x ∉ found)).length ≤ n) :
    Closed table joins (rounds table joins n found) := by
  induction n generalizing found with
  | zero =>
    intro y _ x hx _
    by_contra hno
    have hnil := List.filter_eq_nil_iff.mp (List.length_eq_zero_iff.mp (Nat.le_zero.mp h)) x hx
    exact hnil (by simpa [rounds] using hno)
  | succ n ih =>
    by_cases hf : fresh table joins found = []
    · rw [rounds_of_fresh_nil hf]
      exact closed_of_fresh_nil hf
    · have hlt := missing_lt hf
      exact ih (by omega)

theorem mem_rounds (h : x ∈ rounds table joins n found) :
    ∃ s ∈ found, Relation.ReflTransGen (fun y x => x ∈ table ∧ joins y x = true) s x := by
  induction n generalizing found with
  | zero => exact ⟨x, h, .refl⟩
  | succ n ih =>
    obtain ⟨s, hs, hreach⟩ := ih h
    rcases List.mem_append.mp hs with hs | hs
    · exact ⟨s, hs, hreach⟩
    · obtain ⟨hst, -, y, hy, hj⟩ := mem_fresh.mp hs
      exact ⟨y, hy, .head ⟨hst, hj⟩ hreach⟩

/-- **A row is found iff a chain of joins leads to it from the seed.** -/
theorem mem_recursive_iff :
    x ∈ recursive table joins seed ↔
      ∃ s ∈ seed, Relation.ReflTransGen (fun y x => x ∈ table ∧ joins y x = true) s x := by
  refine ⟨mem_rounds, ?_⟩
  rintro ⟨s, hs, hreach⟩
  have hclosed : Closed table joins (recursive table joins seed) :=
    closed_rounds (List.length_filter_le _ _)
  induction hreach with
  | refl => exact subset_rounds hs
  | tail _ hstep ih => exact hclosed _ ih _ hstep.1 hstep.2

/-- The same for a seed of rows of the table: every row of the chain is one. -/
theorem mem_recursive_of_subset (hseed : seed ⊆ table) :
    x ∈ recursive table joins seed ↔ ∃ s ∈ seed,
      Relation.ReflTransGen (fun y x => y ∈ table ∧ x ∈ table ∧ joins y x = true) s x := by
  rw [mem_recursive_iff]
  refine exists_congr fun s => and_congr_right fun hs => ⟨fun h => ?_, fun h => ?_⟩
  · induction h with
    | refl => exact .refl
    | tail hsy hstep ih =>
      refine ih.tail ⟨?_, hstep⟩
      rcases Relation.ReflTransGen.cases_tail hsy with rfl | ⟨_, _, h⟩
      · exact hseed hs
      · exact h.1
  · exact h.lift id fun _ _ hstep => hstep.2

/-- A query over rows without repetition finds none twice. -/
theorem nodup_recursive (htable : table.Nodup) (hseed : seed.Nodup) :
    (recursive table joins seed).Nodup := by
  have hrounds : ∀ n, ∀ found : List α, found.Nodup → (rounds table joins n found).Nodup := by
    intro n
    induction n with
    | zero => exact fun found h => h
    | succ n ih =>
      refine fun found h => ih _ (List.nodup_append.mpr ⟨h, htable.filter _, ?_⟩)
      rintro a ha b hb rfl
      exact (mem_fresh.mp hb).2.1 ha
  exact hrounds _ _ hseed

end Stashden.Lib
