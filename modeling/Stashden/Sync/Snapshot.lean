import Stashden.Lib.OrdMap
import Stashden.Sync.Path

/-!
# Entries and snapshots (`crates/client/src/sync/snapshot.rs`)

A `Snapshot` is a `BTreeMap<RelPath, Entry>`. A file's entry is the tag the server would compute
for its bytes, with their length, so two files carry the same bytes exactly when their entries are
equal (tags taken as collision-free).

`TreeShaped` is what the walk of a folder and the walk of the server's listing both produce: the
parent of an entry is a directory entry. `TreeShaped.above` extends it to every directory above.
-/

namespace Stashden.Sync

open Lib

/-- `Entry`. -/
inductive Entry where
  | directory
  | file (etag : Str) (size : Nat)
  deriving DecidableEq

/-- `Entry::is_directory`. -/
def Entry.isDirectory : Entry → Bool
  | .directory => true
  | .file _ _ => false

@[simp] theorem Entry.isDirectory_iff {e : Entry} : e.isDirectory = true ↔ e = .directory := by
  cases e <;> simp [isDirectory]

/-- `Snapshot`. -/
abbrev Snapshot := OrdMap RelPath Entry

namespace Snapshot

/-- Every parent of an entry is a directory entry. -/
def TreeShaped (m : Snapshot) : Prop :=
  ∀ p e, m.get p = some e → ∀ d, p.parent = some d → m.get d = some .directory

theorem treeShaped_iff {m : Snapshot} :
    m.TreeShaped ↔ ∀ x ∈ m.entries, ∀ d ∈ x.1.parent, m.get d = some .directory := by
  constructor
  · intro h x hx d hd
    exact h x.1 x.2 (OrdMap.get_eq_some_iff.mpr hx) d hd
  · intro h p e hp d hd
    exact h (p, e) (OrdMap.get_eq_some_iff.mp hp) d hd

instance (m : Snapshot) : Decidable m.TreeShaped := decidable_of_iff _ treeShaped_iff.symm

theorem TreeShaped.above {m : Snapshot} (h : m.TreeShaped) {p d : RelPath} {e : Entry}
    (hp : m.get p = some e) (hd : p.isInside d = true) : m.get d = some .directory := by
  induction hn : p.str.length using Nat.strong_induction_on generalizing p e with
  | _ n ih =>
    obtain ⟨q, hq, hqd⟩ := RelPath.isInside_iff_parent.mp hd
    have hget := h p e hp q hq
    rcases hqd with rfl | hqd
    · exact hget
    · exact ih _ (hn ▸ RelPath.length_lt_of_isInside (RelPath.isInside_of_parent hq)) hget hqd rfl

/-- Nothing stands inside a path that is absent or a file. -/
theorem TreeShaped.none_inside {m : Snapshot} (h : m.TreeShaped) {p d : RelPath}
    (hd : m.get d ≠ some .directory) (hp : p.isInside d = true) : m.get p = none := by
  cases hg : m.get p with
  | none => rfl
  | some e => exact absurd (h.above hg hp) hd

/-- A filter that keeps every directory above what it keeps keeps the shape. -/
theorem TreeShaped.retain {m : Snapshot} (h : m.TreeShaped) {keep : RelPath → Bool}
    (hk : ∀ p d e, m.get p = some e → keep p = true → p.parent = some d → keep d = true) :
    TreeShaped (m.retain keep) := by
  intro p e hp d hd
  rw [OrdMap.get_retain] at hp
  split_ifs at hp with hkp
  rw [OrdMap.get_retain, if_pos (hk p d e hp hkp hd)]
  exact h p e hp d hd

end Snapshot

end Stashden.Sync
