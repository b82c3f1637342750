import Mathlib.Tactic

/-!
# Ordered maps as sorted association lists

An `OrdMap κ α` is a list of `(key, value)` entries with strictly increasing keys: the iteration
order of an ordered map is the list itself, and a range scan from a key is a `dropWhile`. The
order is a field of the structure, so no lemma below carries a sortedness premise.

`get_insert`, `get_erase` and `get_retain` say what each update does to every lookup; `keys_*` and
`mem_entries_iff` tie the lookups to the list. `scan_prefix` is the range-scan law: over a set of
keys that is convex and starts at the scan's lower end, `takeWhile` reads off exactly the entries
of the set.
-/

namespace Stashden.Lib

universe u v

/-- A finite map with ordered keys: the entries in key order. -/
structure OrdMap (κ : Type u) (α : Type v) [LinearOrder κ] where
  entries : List (κ × α)
  sorted : entries.Pairwise fun a b => a.1 < b.1

namespace OrdMap

variable {κ : Type u} {α β : Type v} [LinearOrder κ]

instance [DecidableEq α] : DecidableEq (OrdMap κ α) := fun a b =>
  decidable_of_iff (a.entries = b.entries)
    ⟨fun h => by cases a; cases b; cases h; rfl, fun h => h ▸ rfl⟩

def empty : OrdMap κ α := ⟨[], List.Pairwise.nil⟩

instance : Inhabited (OrdMap κ α) := ⟨empty⟩

/-- The value stored under `k`. -/
def get (m : OrdMap κ α) (k : κ) : Option α := (m.entries.find? fun e => e.1 = k).map Prod.snd

def containsKey (m : OrdMap κ α) (k : κ) : Bool := (m.get k).isSome

/-- The keys, in order. -/
def keys (m : OrdMap κ α) : List κ := m.entries.map Prod.fst

/-- The entries whose key satisfies `p`. -/
def retain (m : OrdMap κ α) (p : κ → Bool) : OrdMap κ α :=
  ⟨m.entries.filter fun e => p e.1, m.sorted.filter _⟩

def erase (m : OrdMap κ α) (k : κ) : OrdMap κ α := m.retain fun k' => !decide (k' = k)

/-- The same keys, each value sent through `f`. -/
def mapVal (f : α → β) (m : OrdMap κ α) : OrdMap κ β :=
  ⟨m.entries.map fun e => (e.1, f e.2), List.pairwise_map.mpr m.sorted⟩

/-- Insertion into a sorted list of entries: a new key goes in its place, an old one is replaced. -/
def insertEntry (k : κ) (v : α) : List (κ × α) → List (κ × α)
  | [] => [(k, v)]
  | e :: rest =>
    if k < e.1 then (k, v) :: e :: rest
    else if k = e.1 then (k, v) :: rest
    else e :: insertEntry k v rest

theorem mem_insertEntry {k : κ} {v : α} {l : List (κ × α)} {e : κ × α}
    (h : e ∈ insertEntry k v l) : e = (k, v) ∨ e ∈ l := by
  induction l with
  | nil => exact Or.inl (List.mem_singleton.mp h)
  | cons x rest ih =>
    unfold insertEntry at h
    split_ifs at h
    · exact (List.mem_cons.mp h).imp_right id
    · exact (List.mem_cons.mp h).imp_right (List.mem_cons_of_mem x)
    · rcases List.mem_cons.mp h with rfl | h
      · exact Or.inr List.mem_cons_self
      · exact (ih h).imp_right (List.mem_cons_of_mem x)

theorem insertEntry_sorted (k : κ) (v : α) {l : List (κ × α)}
    (h : l.Pairwise fun a b => a.1 < b.1) :
    (insertEntry k v l).Pairwise fun a b => a.1 < b.1 := by
  induction l with
  | nil => exact List.pairwise_singleton _ _
  | cons x rest ih =>
    obtain ⟨hx, hr⟩ := List.pairwise_cons.mp h
    unfold insertEntry
    split_ifs with hlt heq
    · refine List.pairwise_cons.mpr ⟨fun e he => ?_, h⟩
      rcases List.mem_cons.mp he with rfl | he
      · exact hlt
      · exact lt_trans hlt (hx e he)
    · exact List.pairwise_cons.mpr ⟨fun e he => heq ▸ hx e he, hr⟩
    · refine List.pairwise_cons.mpr ⟨fun e he => ?_, ih hr⟩
      rcases mem_insertEntry he with rfl | he
      · exact lt_of_le_of_ne (not_lt.mp hlt) (Ne.symm heq)
      · exact hx e he

def insert (m : OrdMap κ α) (k : κ) (v : α) : OrdMap κ α :=
  ⟨insertEntry k v m.entries, insertEntry_sorted k v m.sorted⟩

/-- The map holding the given entries, later ones winning. -/
def ofList (l : List (κ × α)) : OrdMap κ α := l.foldl (fun m e => m.insert e.1 e.2) empty

/-! ## Lookups -/

theorem get_eq_some_iff {m : OrdMap κ α} {k : κ} {v : α} :
    m.get k = some v ↔ (k, v) ∈ m.entries := by
  obtain ⟨l, hl⟩ := m
  show ((l.find? fun e => e.1 = k).map Prod.snd) = some v ↔ (k, v) ∈ l
  induction l with
  | nil => simp
  | cons x rest ih =>
    obtain ⟨hx, hr⟩ := List.pairwise_cons.mp hl
    obtain ⟨kx, vx⟩ := x
    rw [List.find?_cons]
    by_cases hk : kx = k
    · subst hk
      have hnot : (kx, v) ∉ rest := fun h => lt_irrefl kx (hx (kx, v) h)
      simp [hnot, eq_comm]
    · have hne : (k, v) ≠ (kx, vx) := fun h => hk (congrArg Prod.fst h).symm
      simp only [hk, decide_false, ih hr, List.mem_cons, hne, false_or]

theorem get_eq_none_iff {m : OrdMap κ α} {k : κ} : m.get k = none ↔ ∀ v, (k, v) ∉ m.entries := by
  rw [Option.eq_none_iff_forall_ne_some]
  exact forall_congr' fun v => not_congr get_eq_some_iff

theorem mem_keys_iff {m : OrdMap κ α} {k : κ} : k ∈ m.keys ↔ ∃ v, m.get k = some v := by
  simp only [keys, List.mem_map, Prod.exists, exists_and_right, exists_eq_right, get_eq_some_iff]

theorem containsKey_iff {m : OrdMap κ α} {k : κ} :
    m.containsKey k = true ↔ ∃ v, m.get k = some v := Option.isSome_iff_exists

theorem containsKey_eq_false_iff {m : OrdMap κ α} {k : κ} :
    m.containsKey k = false ↔ m.get k = none := by
  unfold containsKey
  cases m.get k <;> simp

theorem keys_sorted (m : OrdMap κ α) : m.keys.Pairwise (· < ·) := List.pairwise_map.mpr m.sorted

theorem keys_nodup (m : OrdMap κ α) : m.keys.Nodup := m.keys_sorted.imp ne_of_lt

@[simp] theorem get_empty (k : κ) : (empty : OrdMap κ α).get k = none := rfl

theorem get_retain (m : OrdMap κ α) (p : κ → Bool) (k : κ) :
    (m.retain p).get k = if p k = true then m.get k else none := by
  split_ifs with hp
  · refine Option.ext fun v => ?_
    rw [get_eq_some_iff, get_eq_some_iff]
    simp [retain, hp]
  · rw [get_eq_none_iff]
    simp [retain, hp]

theorem get_erase (m : OrdMap κ α) (k q : κ) :
    (m.erase k).get q = if q = k then none else m.get q := by
  unfold erase
  rw [get_retain]
  by_cases h : q = k <;> simp [h]

theorem get_mapVal (f : α → β) (m : OrdMap κ α) (k : κ) :
    (m.mapVal f).get k = (m.get k).map f := by
  refine Option.ext fun v => ?_
  rw [get_eq_some_iff, Option.map_eq_some_iff]
  simp only [mapVal, List.mem_map, Prod.mk.injEq, Prod.exists, get_eq_some_iff]
  constructor
  · rintro ⟨k', w, hm, rfl, rfl⟩
    exact ⟨w, hm, rfl⟩
  · rintro ⟨w, hm, rfl⟩
    exact ⟨k, w, hm, rfl, rfl⟩

theorem mem_insertEntry_self (k : κ) (v : α) (l : List (κ × α)) : (k, v) ∈ insertEntry k v l := by
  induction l with
  | nil => exact List.mem_cons_self
  | cons x rest ih =>
    unfold insertEntry
    split_ifs
    · exact List.mem_cons_self
    · exact List.mem_cons_self
    · exact List.mem_cons_of_mem x ih

theorem mem_insertEntry_of_ne {k : κ} {v : α} {l : List (κ × α)} {e : κ × α} (hk : e.1 ≠ k) :
    e ∈ insertEntry k v l ↔ e ∈ l := by
  have hne : e ≠ (k, v) := fun h => hk (congrArg Prod.fst h)
  induction l with
  | nil => simp [insertEntry, hne]
  | cons x rest ih =>
    unfold insertEntry
    split_ifs with hlt heq
    · simp [hne]
    · have hx : e ≠ x := fun h => hk (h ▸ heq.symm)
      simp [hne, hx]
    · simp [ih]

theorem get_insert (m : OrdMap κ α) (k : κ) (v : α) (q : κ) :
    (m.insert k v).get q = if q = k then some v else m.get q := by
  split_ifs with h
  · subst h
    exact get_eq_some_iff.mpr (mem_insertEntry_self _ _ _)
  · refine Option.ext fun w => ?_
    rw [get_eq_some_iff, get_eq_some_iff]
    exact mem_insertEntry_of_ne h

@[simp] theorem get_insert_self (m : OrdMap κ α) (k : κ) (v : α) : (m.insert k v).get k = some v := by
  rw [get_insert, if_pos rfl]

theorem get_insert_of_ne (m : OrdMap κ α) {k q : κ} (v : α) (h : q ≠ k) :
    (m.insert k v).get q = m.get q := by rw [get_insert, if_neg h]

theorem get_ofList_isSome (l : List (κ × α)) (k : κ) :
    ((ofList l).get k).isSome = true ↔ k ∈ l.map Prod.fst := by
  suffices h : ∀ m : OrdMap κ α, ((l.foldl (fun m e => m.insert e.1 e.2) m).get k).isSome = true ↔
      k ∈ l.map Prod.fst ∨ (m.get k).isSome = true by
    simpa [ofList] using h empty
  induction l with
  | nil => simp
  | cons e l ih =>
    intro m
    rw [List.foldl_cons, ih, get_insert]
    by_cases hk : k = e.1 <;> simp [hk]

/-! ## Sets of keys -/

/-- The distinct members of a list, in order (`collect::<BTreeSet<_>>`). -/
def collect (ks : List κ) : List κ := (ofList (ks.map fun k => (k, ()))).keys

theorem mem_collect {ks : List κ} {k : κ} : k ∈ collect ks ↔ k ∈ ks := by
  unfold collect
  rw [mem_keys_iff, ← Option.isSome_iff_exists, get_ofList_isSome]
  simp [List.map_map, Function.comp_def]

theorem collect_sorted (ks : List κ) : (collect ks).Pairwise (· < ·) := keys_sorted _

theorem collect_nodup (ks : List κ) : (collect ks).Nodup := keys_nodup _

/-! ## Range scans -/

/-- The entries from the key `k` on (`range(k..)`). -/
def scanFrom (m : OrdMap κ α) (k : κ) : List (κ × α) := m.entries.dropWhile fun e => decide (e.1 < k)

theorem mem_scanFrom {m : OrdMap κ α} {k : κ} {e : κ × α} :
    e ∈ m.scanFrom k ↔ e ∈ m.entries ∧ k ≤ e.1 := by
  obtain ⟨l, hl⟩ := m
  show e ∈ l.dropWhile _ ↔ e ∈ l ∧ k ≤ e.1
  induction l with
  | nil => simp
  | cons x rest ih =>
    obtain ⟨hx, hr⟩ := List.pairwise_cons.mp hl
    rw [List.dropWhile_cons]
    by_cases hlt : x.1 < k
    · simp only [hlt, decide_true, if_true, ih hr, List.mem_cons]
      constructor
      · exact fun ⟨h1, h2⟩ => ⟨Or.inr h1, h2⟩
      · rintro ⟨rfl | h1, h2⟩
        · exact absurd h2 (not_le.mpr hlt)
        · exact ⟨h1, h2⟩
    · have hk := not_lt.mp hlt
      rw [if_neg (by simpa using hlt), List.mem_cons]
      constructor
      · rintro (rfl | h)
        · exact ⟨Or.inl rfl, hk⟩
        · exact ⟨Or.inr h, hk.trans (hx e h).le⟩
      · exact fun h => h.1

/-- A `takeWhile` over a sorted list loses nothing that a downward-closed test accepts. -/
theorem mem_takeWhile_of_closed {l : List (κ × α)} (hl : l.Pairwise fun a b => a.1 < b.1)
    {p : κ × α → Bool} (hp : ∀ a ∈ l, ∀ b ∈ l, a.1 < b.1 → p b = true → p a = true) {e : κ × α} :
    e ∈ l.takeWhile p ↔ e ∈ l ∧ p e = true := by
  induction l with
  | nil => simp
  | cons x rest ih =>
    obtain ⟨hx, hr⟩ := List.pairwise_cons.mp hl
    have ih' := ih hr fun a ha b hb =>
      hp a (List.mem_cons_of_mem x ha) b (List.mem_cons_of_mem x hb)
    rw [List.takeWhile_cons]
    by_cases hpx : p x = true
    · rw [if_pos hpx, List.mem_cons, List.mem_cons, ih']
      constructor
      · rintro (rfl | ⟨h1, h2⟩)
        · exact ⟨Or.inl rfl, hpx⟩
        · exact ⟨Or.inr h1, h2⟩
      · rintro ⟨rfl | h1, h2⟩
        · exact Or.inl rfl
        · exact Or.inr ⟨h1, h2⟩
    · rw [if_neg hpx]
      refine ⟨fun h => absurd h List.not_mem_nil, ?_⟩
      rintro ⟨h1, h2⟩
      rcases List.mem_cons.mp h1 with rfl | h1
      · exact absurd h2 hpx
      · exact absurd (hp x List.mem_cons_self e (List.mem_cons_of_mem x h1) (hx e h1) h2) hpx

/-- **The range-scan law.** Skip the lower end `k`, take while `p` holds: if on the keys above `k`
the test `p` is closed downwards, the scan reads every entry above `k` on which `p` holds. -/
theorem scan_prefix {m : OrdMap κ α} {k : κ} {p : κ → Bool}
    (hp : ∀ a b : κ, k < a → a < b → p b = true → p a = true) {e : κ × α} :
    e ∈ ((m.scanFrom k).dropWhile fun x => decide (x.1 = k)).takeWhile (fun x => p x.1) ↔
      e ∈ m.entries ∧ k < e.1 ∧ p e.1 = true := by
  have hs : (m.scanFrom k).Pairwise fun a b => a.1 < b.1 :=
    m.sorted.sublist (List.dropWhile_sublist _)
  have hmem : ∀ {x}, x ∈ (m.scanFrom k).dropWhile (fun x => decide (x.1 = k)) ↔
      x ∈ m.entries ∧ k < x.1 := by
    intro x
    cases hl : m.scanFrom k with
    | nil =>
      simp only [List.dropWhile_nil, List.not_mem_nil, false_iff]
      exact fun h => by simpa [hl] using mem_scanFrom.mpr ⟨h.1, h.2.le⟩
    | cons y ys =>
      rw [hl] at hs
      obtain ⟨hy, -⟩ := List.pairwise_cons.mp hs
      have hym : k ≤ y.1 := (mem_scanFrom.mp (hl ▸ List.mem_cons_self)).2
      have hall : x ∈ y :: ys ↔ x ∈ m.entries ∧ k ≤ x.1 := by rw [← hl]; exact mem_scanFrom
      have hys : ∀ z ∈ ys, k < z.1 := fun z hz => lt_of_le_of_lt hym (hy z hz)
      by_cases hyk : y.1 = k
      · have hdrop : (y :: ys).dropWhile (fun x => decide (x.1 = k)) = ys := by
          rw [List.dropWhile_cons, if_pos (by simpa using hyk)]
          cases ys with
          | nil => rfl
          | cons z zs =>
            rw [List.dropWhile_cons, if_neg]
            simpa using ne_of_gt (hys z List.mem_cons_self)
        rw [hdrop]
        constructor
        · exact fun h => ⟨(hall.mp (List.mem_cons_of_mem y h)).1, hys x h⟩
        · rintro ⟨h1, h2⟩
          rcases List.mem_cons.mp (hall.mpr ⟨h1, h2.le⟩) with rfl | h
          · exact absurd hyk (ne_of_gt h2)
          · exact h
      · have hdrop : (y :: ys).dropWhile (fun x => decide (x.1 = k)) = y :: ys := by
          rw [List.dropWhile_cons, if_neg (by simpa using hyk)]
        rw [hdrop, hall]
        refine and_congr_right fun hx => ⟨fun h => lt_of_le_of_ne h fun he => ?_, le_of_lt⟩
        rcases List.mem_cons.mp (hall.mpr ⟨hx, h⟩) with rfl | hz
        · exact hyk he.symm
        · exact absurd he (ne_of_lt (hys x hz))
  rw [mem_takeWhile_of_closed (hs.sublist (List.dropWhile_sublist _)), hmem, and_assoc]
  intro a ha b hb hab hpb
  exact hp a.1 b.1 (hmem.mp ha).2 hab hpb

end OrdMap

end Stashden.Lib
