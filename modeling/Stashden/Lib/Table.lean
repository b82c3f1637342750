import Mathlib.Tactic

/-!
# Tables with a primary key

A `Table ρ key` is a list of rows no two of which have the same key; the structure carries it. The
lookup `find` is its interface: `find_insert`, `find_delete` and `find_update` say what a write does
to every lookup, `total_*` what it does to a sum over the rows.

A write never changes a key, so `update` takes the proof that its function keeps them.
-/

namespace Stashden.Lib

universe u v

/-- Rows no two of which have the same key. -/
structure Table (ρ : Type u) {κ : Type v} (key : ρ → κ) where
  rows : List ρ
  nodup : (rows.map key).Nodup

namespace Table

variable {ρ : Type u} {κ : Type v} {key : ρ → κ}

instance [DecidableEq ρ] : DecidableEq (Table ρ key) := fun a b =>
  decidable_of_iff (a.rows = b.rows)
    ⟨fun h => by cases a; cases b; cases h; rfl, fun h => h ▸ rfl⟩

def empty : Table ρ key := ⟨[], List.nodup_nil⟩

instance : Inhabited (Table ρ key) := ⟨empty⟩

/-- Two rows of a table with the same key are the same row. -/
theorem eq_of_key {t : Table ρ key} {r r' : ρ} (hr : r ∈ t.rows) (hr' : r' ∈ t.rows)
    (h : key r = key r') : r = r' := List.inj_on_of_nodup_map t.nodup hr hr' h

/-- The rows that satisfy `p` (`SELECT`). -/
def select (t : Table ρ key) (p : ρ → Bool) : List ρ := t.rows.filter p

@[simp] theorem mem_select {t : Table ρ key} {p : ρ → Bool} {r : ρ} :
    r ∈ t.select p ↔ r ∈ t.rows ∧ p r = true := List.mem_filter

/-- The rows without those that satisfy `p` (`DELETE`). -/
def delete (t : Table ρ key) (p : ρ → Bool) : Table ρ key :=
  ⟨t.rows.filter fun r => !p r, (t.nodup.sublist (List.filter_sublist.map key))⟩

@[simp] theorem mem_delete {t : Table ρ key} {p : ρ → Bool} {r : ρ} :
    r ∈ (t.delete p).rows ↔ r ∈ t.rows ∧ p r = false := by
  simp [delete]

/-- The rows that satisfy `p` sent through `f` (`UPDATE`). -/
def update (t : Table ρ key) (p : ρ → Bool) (f : ρ → ρ) (hf : ∀ r, key (f r) = key r) :
    Table ρ key where
  rows := t.rows.map fun r => if p r then f r else r
  nodup := by
    rw [List.map_map, List.map_congr_left (g := key) fun r _ => ?_]
    · exact t.nodup
    · show key (if p r then f r else r) = key r
      split_ifs
      · exact hf r
      · rfl

theorem mem_update {t : Table ρ key} {p : ρ → Bool} {f : ρ → ρ} {hf : ∀ r, key (f r) = key r}
    {r : ρ} : r ∈ (t.update p f hf).rows ↔ ∃ r₀ ∈ t.rows, (if p r₀ then f r₀ else r₀) = r :=
  List.mem_map

variable [DecidableEq κ]

/-- The row with a key. -/
def find (t : Table ρ key) (k : κ) : Option ρ := t.rows.find? fun r => decide (key r = k)

theorem find_eq_some_iff {t : Table ρ key} {k : κ} {r : ρ} :
    t.find k = some r ↔ r ∈ t.rows ∧ key r = k := by
  constructor
  · intro h
    exact ⟨List.mem_of_find?_eq_some h, by simpa using List.find?_some h⟩
  · rintro ⟨hr, rfl⟩
    cases hf : t.find (key r) with
    | none =>
      have hno := List.find?_eq_none.mp hf r hr
      simp at hno
    | some r' =>
      rw [eq_of_key hr (List.mem_of_find?_eq_some hf)]
      have hk := List.find?_some hf
      simp only [decide_eq_true_eq] at hk
      exact hk.symm

theorem find_eq_none_iff {t : Table ρ key} {k : κ} :
    t.find k = none ↔ ∀ r ∈ t.rows, key r ≠ k := by
  rw [Option.eq_none_iff_forall_ne_some]
  constructor
  · exact fun h r hr hk => h r (find_eq_some_iff.mpr ⟨hr, hk⟩)
  · exact fun h r hr => h r (find_eq_some_iff.mp hr).1 (find_eq_some_iff.mp hr).2

theorem mem_iff_find {t : Table ρ key} {r : ρ} : r ∈ t.rows ↔ t.find (key r) = some r := by
  simp [find_eq_some_iff]

theorem find_mem {t : Table ρ key} {k : κ} {r : ρ} (h : t.find k = some r) : r ∈ t.rows :=
  (find_eq_some_iff.mp h).1

theorem find_key {t : Table ρ key} {k : κ} {r : ρ} (h : t.find k = some r) : key r = k :=
  (find_eq_some_iff.mp h).2

/-- A new row; a key that is taken is refused (`INSERT`). -/
def insert (t : Table ρ key) (r : ρ) : Option (Table ρ key) :=
  if h : t.find (key r) = none then
    some ⟨t.rows ++ [r], by
      rw [List.map_append, List.nodup_append]
      refine ⟨t.nodup, List.nodup_singleton _, fun k hk k' hk' => ?_⟩
      obtain ⟨r', hr', rfl⟩ := List.mem_map.mp hk
      rw [List.mem_singleton.mp hk']
      exact find_eq_none_iff.mp h r' hr'⟩
  else none

theorem insert_eq_some {t t' : Table ρ key} {r : ρ} (h : t.insert r = some t') :
    t.find (key r) = none ∧ t'.rows = t.rows ++ [r] := by
  unfold insert at h
  split_ifs at h with hk
  exact ⟨hk, by rw [← Option.some.inj h]⟩

theorem insert_isSome {t : Table ρ key} {r : ρ} (h : t.find (key r) = none) :
    ∃ t', t.insert r = some t' := by
  unfold insert
  rw [dif_pos h]
  exact ⟨_, rfl⟩

theorem find_insert {t t' : Table ρ key} {r : ρ} (h : t.insert r = some t') (k : κ) :
    t'.find k = if k = key r then some r else t.find k := by
  obtain ⟨hnone, hrows⟩ := insert_eq_some h
  refine Option.ext fun r' => ?_
  rw [find_eq_some_iff, hrows, List.mem_append, List.mem_singleton]
  split_ifs with hk
  · constructor
    · rintro ⟨hr' | rfl, hk'⟩
      · exact absurd (hk'.trans hk) (find_eq_none_iff.mp hnone r' hr')
      · rfl
    · intro hr'
      cases hr'
      exact ⟨Or.inr rfl, hk.symm⟩
  · rw [find_eq_some_iff]
    constructor
    · rintro ⟨hr' | rfl, hk'⟩
      · exact ⟨hr', hk'⟩
      · exact absurd hk'.symm hk
    · exact fun hr' => ⟨Or.inl hr'.1, hr'.2⟩

theorem find_delete (t : Table ρ key) (p : ρ → Bool) (k : κ) :
    (t.delete p).find k = (t.find k).filter fun r => !p r := by
  refine Option.ext fun r => ?_
  rw [find_eq_some_iff, mem_delete, Option.filter_eq_some_iff, find_eq_some_iff]
  simp only [Bool.not_eq_true']
  tauto

theorem find_update (t : Table ρ key) (p : ρ → Bool) (f : ρ → ρ) (hf : ∀ r, key (f r) = key r)
    (k : κ) : (t.update p f hf).find k = (t.find k).map fun r => if p r then f r else r := by
  have hkey : ∀ r, key (if p r then f r else r) = key r := fun r => by
    split_ifs
    · exact hf r
    · rfl
  refine Option.ext fun r => ?_
  rw [find_eq_some_iff, mem_update, Option.map_eq_some_iff]
  simp only [find_eq_some_iff]
  constructor
  · rintro ⟨⟨r₀, hr₀, rfl⟩, hk⟩
    exact ⟨r₀, ⟨hr₀, (hkey r₀).symm.trans hk⟩, rfl⟩
  · rintro ⟨r₀, ⟨hr₀, hk⟩, rfl⟩
    exact ⟨⟨r₀, hr₀, rfl⟩, (hkey r₀).trans hk⟩

omit [DecidableEq κ] in
/-- An update of no row. -/
theorem update_of_none {t : Table ρ key} {p : ρ → Bool} {f : ρ → ρ} {hf : ∀ r, key (f r) = key r}
    (h : ∀ r ∈ t.rows, p r = false) : t.update p f hf = t := by
  have hrows : t.rows.map (fun r => if p r then f r else r) = t.rows := by
    conv_rhs => rw [← List.map_id t.rows]
    refine List.map_congr_left fun r hr => ?_
    rw [h r hr]
    rfl
  cases t
  unfold update
  congr

/-! ## Sums -/

section Sums

omit [DecidableEq κ]

/-- A sum over the rows. -/
def total (t : Table ρ key) (f : ρ → Int) : Int := (t.rows.map f).sum

theorem total_congr {t : Table ρ key} {f g : ρ → Int} (h : ∀ r ∈ t.rows, f r = g r) :
    t.total f = t.total g := by
  unfold total
  rw [List.map_congr_left h]

theorem total_insert [DecidableEq κ] {t t' : Table ρ key} {r : ρ} (h : t.insert r = some t')
    (f : ρ → Int) : t'.total f = t.total f + f r := by
  unfold total
  rw [(insert_eq_some h).2, List.map_append, List.sum_append]
  simp

theorem total_delete (t : Table ρ key) (p : ρ → Bool) (f : ρ → Int) :
    (t.delete p).total f = t.total f - ((t.select p).map f).sum := by
  show ((t.rows.filter fun r => !p r).map f).sum = (t.rows.map f).sum - ((t.rows.filter p).map f).sum
  induction t.rows with
  | nil => rfl
  | cons r rows ih =>
    by_cases hp : p r = true
    · simp only [List.filter_cons, hp, List.map_cons, List.sum_cons, Bool.not_true,
        Bool.false_eq_true, if_true, if_false] at ih ⊢
      omega
    · simp only [List.filter_cons, hp, List.map_cons, List.sum_cons, Bool.not_false,
        Bool.false_eq_true, if_true, if_false] at ih ⊢
      omega

end Sums

/-! ## Sums by key -/

/-- What a key adds to a sum over the rows. -/
def value (t : Table ρ key) (f : ρ → Int) (k : κ) : Int := (t.find k).elim 0 f

theorem value_of_find {t : Table ρ key} {f : ρ → Int} {k : κ} {r : ρ} (h : t.find k = some r) :
    t.value f k = f r := by
  rw [value, h]
  rfl

theorem value_of_missing {t : Table ρ key} {f : ρ → Int} {k : κ} (h : t.find k = none) :
    t.value f k = 0 := by
  rw [value, h]
  rfl

/-- A sum over the rows is one over the keys. -/
theorem total_eq_sum (t : Table ρ key) (f : ρ → Int) {keys : Finset κ}
    (h : ∀ r ∈ t.rows, key r ∈ keys) : t.total f = ∑ k ∈ keys, t.value f k := by
  have hkeys : t.total f = ∑ k ∈ (t.rows.map key).toFinset, t.value f k := by
    rw [List.sum_toFinset _ t.nodup, List.map_map]
    unfold total
    refine congrArg List.sum (List.map_congr_left fun r hr => ?_)
    rw [Function.comp_apply, value_of_find (mem_iff_find.mp hr)]
  rw [hkeys]
  refine Finset.sum_subset (fun k hk => ?_) fun k _ hk => ?_
  · obtain ⟨r, hr, rfl⟩ := List.mem_map.mp (List.mem_toFinset.mp hk)
    exact h r hr
  · refine value_of_missing (find_eq_none_iff.mpr fun r hr he => hk ?_)
    exact List.mem_toFinset.mpr (List.mem_map.mpr ⟨r, hr, he⟩)

/-- **Two sums differ by what the keys in between add.** -/
theorem total_add_of_value {t t' : Table ρ key} {f f' : ρ → Int} {ids : List κ}
    (hids : ids.Nodup) {d : κ → Int}
    (h : ∀ k, t'.value f' k = t.value f k + if k ∈ ids then d k else 0) :
    t'.total f' = t.total f + (ids.map d).sum := by
  have hsub : ∀ {u : Table ρ key}, u = t ∨ u = t' → ∀ r ∈ u.rows,
      key r ∈ (t.rows.map key).toFinset ∪ (t'.rows.map key).toFinset ∪ ids.toFinset := by
    rintro u (rfl | rfl) r hr
    · exact Finset.mem_union_left _ (Finset.mem_union_left _
        (List.mem_toFinset.mpr (List.mem_map_of_mem hr)))
    · exact Finset.mem_union_left _ (Finset.mem_union_right _
        (List.mem_toFinset.mpr (List.mem_map_of_mem hr)))
  rw [total_eq_sum t f (hsub (Or.inl rfl)), total_eq_sum t' f' (hsub (Or.inr rfl)),
    ← List.sum_toFinset _ hids, Finset.sum_congr rfl fun k _ => h k, Finset.sum_add_distrib]
  refine congrArg _ ?_
  rw [Finset.sum_ite, Finset.sum_const_zero, add_zero]
  refine Finset.sum_congr ?_ fun _ _ => rfl
  ext k
  simp only [Finset.mem_filter, Finset.mem_union, List.mem_toFinset]
  exact ⟨fun hk => hk.2, fun hk => ⟨Or.inr hk, hk⟩⟩

/-- Rows held are taken off a sum when they are deleted. -/
theorem total_delete_held {t : Table ρ key} {held : List ρ} (f : ρ → Int)
    (hheld : ∀ r ∈ held, t.find (key r) = some r) (hnodup : (held.map key).Nodup) :
    (t.delete fun r => decide (key r ∈ held.map key)).total f = t.total f - (held.map f).sum := by
  have hsum : (t.delete fun r => decide (key r ∈ held.map key)).total f =
      t.total f + ((held.map key).map fun k => -t.value f k).sum := by
    refine total_add_of_value hnodup fun k => ?_
    unfold value
    rw [find_delete]
    cases hk : t.find k with
    | none => simp
    | some r =>
      rw [Option.filter_some, find_key hk]
      by_cases hmem : k ∈ held.map key <;> simp [hmem]
  have hneg : (held.map key).map (fun k => -t.value f k) = held.map fun r => -f r := by
    rw [List.map_map]
    refine List.map_congr_left fun r hr => ?_
    rw [Function.comp_apply, value_of_find (hheld r hr)]
  have hsub : ∀ rows : List ρ, (rows.map fun r => -f r).sum = -(rows.map f).sum := by
    intro rows
    induction rows with
    | nil => rfl
    | cons r rows ih =>
      rw [List.map_cons, List.map_cons, List.sum_cons, List.sum_cons, ih]
      omega
  rw [hsum, hneg, hsub]
  omega

theorem total_congr_value {t t' : Table ρ key} {f f' : ρ → Int}
    (h : ∀ k, t'.value f' k = t.value f k) : t'.total f' = t.total f := by
  have hsum : t'.total f' = t.total f + (([] : List κ).map fun _ => 0).sum :=
    total_add_of_value List.nodup_nil fun k => by rw [h k, if_neg List.not_mem_nil, add_zero]
  rwa [List.map_nil, List.sum_nil, add_zero] at hsum

end Table

end Stashden.Lib
