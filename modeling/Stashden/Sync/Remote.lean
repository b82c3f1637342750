import Stashden.Sync.Snapshot
import Stashden.Sync.Walk

/-!
# The walk of the server's listing (`Remote::walk` in `crates/client/src/transfer.rs`)

`walkFrom` lists one directory a turn, the last one noted first, in whatever monad the requests are
made in. What it gathers of a server that answers as a tree does (`Tree`) is exactly what is listed:
`walk_spec`, with as many turns as the tree needs. A tree whose directories end (`Acc`) needs finitely
many (`explores`), and the snapshot is one `TreeShaped` (`treeShaped_of_gathered`).
-/

namespace Stashden.Sync

open Lib Stashden.Core RelPath

/-- What `walk` reads of a `Node` it is listed. -/
structure Listed where
  name : Str
  entry : Entry
  deriving DecidableEq

namespace Remote

/-- `child_of`. -/
def childOf (directory : Option RelPath) (name : Str) : Except InvalidRelPath RelPath :=
  match directory with
  | some parent => parent.child name
  | none => RelPath.parse name

/-- The inner loop of `walk`: what is noted of one listing, and what is still to list. -/
def note (directory : Option RelPath) :
    List Listed → Snapshot → List (Option RelPath) → Snapshot × List (Option RelPath)
  | [], snapshot, pending => (snapshot, pending)
  | node :: listed, snapshot, pending =>
    match childOf directory node.name with
    | .error _ => note directory listed snapshot pending
    | .ok path =>
      note directory listed (snapshot.insert path node.entry)
        (if node.entry.isDirectory then some path :: pending else pending)

variable {m : Type → Type} [Monad m]

/-- The outer loop of `walk`, of so many turns at most. -/
def walkFrom (list : Option RelPath → m (List Listed)) :
    Nat → List (Option RelPath) → Snapshot → m (Option Snapshot)
  | _, [], snapshot => pure (some snapshot)
  | 0, _ :: _, _ => pure none
  | turns + 1, directory :: pending, snapshot => do
    let listed ← list directory
    let noted := note directory listed snapshot pending
    walkFrom list turns noted.2 noted.1

/-- `Remote::walk`. -/
def walk (list : Option RelPath → m (List Listed)) (turns : Nat) : m (Option Snapshot) :=
  walkFrom list turns [none] OrdMap.empty

/-! ## What is listed -/

section Listing

variable (answer : Option RelPath → List Listed)

/-- The answer for a directory has an entry at a path. -/
def Lists (directory : Option RelPath) (p : RelPath) (e : Entry) : Prop :=
  ∃ x ∈ answer directory, childOf directory x.name = .ok p ∧ x.entry = e

/-- A directory listed in another one. -/
def Inside (c d : Option RelPath) : Prop := ∃ p, c = some p ∧ Lists answer d p .directory

/-- What is listed in a directory, or in a directory listed there, and so on. -/
def Gathered (directory : Option RelPath) (p : RelPath) (e : Entry) : Prop :=
  ∃ d, Relation.ReflTransGen (Inside answer) d directory ∧ Lists answer d p e

/-- A server answers as a tree does: names that are none have no separator, and each is listed once. -/
structure Tree : Prop where
  name : ∀ d, Relation.ReflTransGen (Inside answer) d none → ∀ x ∈ answer d,
    x.name ≠ [] ∧ '/' ∉ x.name
  once : ∀ d, Relation.ReflTransGen (Inside answer) d none → ∀ x ∈ answer d, ∀ y ∈ answer d,
    x.name = y.name → x.entry = y.entry

end Listing

variable {answer : Option RelPath → List Listed} {d directory : Option RelPath} {p : RelPath}
  {e e' : Entry} {snapshot : Snapshot} {pending : List (Option RelPath)} {listed : List Listed}

theorem childOf_ok_iff {name : Str} (hne : name ≠ []) (hs : '/' ∉ name) :
    childOf directory name = .ok p ↔ p.segments = levels directory ++ [name] :=
  joined_ok_iff hne hs

/-- The entries of one listing, each at its path. -/
def entriesOf (directory : Option RelPath) (listed : List Listed) : List (RelPath × Entry) :=
  listed.filterMap fun x => (childOf directory x.name).toOption.map fun p => (p, x.entry)

/-- The directories among them. -/
def directoriesOf (found : List (RelPath × Entry)) : List (Option RelPath) :=
  (found.filter fun x => x.2.isDirectory).map fun x => some x.1

/-- Entries put into a snapshot, one after the other. -/
def noted (snapshot : Snapshot) (found : List (RelPath × Entry)) : Snapshot :=
  found.foldl (fun s x => s.insert x.1 x.2) snapshot

/-- **The inner loop** puts the entries into the snapshot and their directories on the stack. -/
theorem note_eq : note directory listed snapshot pending =
    (noted snapshot (entriesOf directory listed),
      (directoriesOf (entriesOf directory listed)).reverse ++ pending) := by
  induction listed generalizing snapshot pending with
  | nil => rfl
  | cons x listed ih =>
    cases hp : childOf directory x.name with
    | error e =>
      have hskip : entriesOf directory (x :: listed) = entriesOf directory listed := by
        unfold entriesOf
        rw [List.filterMap_cons, hp]
        rfl
      rw [note, hp, hskip]
      exact ih
    | ok path =>
      have hput : entriesOf directory (x :: listed) =
          (path, x.entry) :: entriesOf directory listed := by
        unfold entriesOf
        rw [List.filterMap_cons, hp]
        rfl
      rw [note, hp, hput]
      refine ih.trans ?_
      unfold noted directoriesOf
      rw [List.foldl_cons, List.filter_cons]
      split_ifs
      · rw [List.map_cons, List.reverse_cons, List.append_assoc]
        rfl
      · rfl

theorem mem_entriesOf : (p, e) ∈ entriesOf d (answer d) ↔ Lists answer d p e := by
  unfold entriesOf Lists
  rw [List.mem_filterMap]
  refine exists_congr fun x => and_congr_right fun _ => ?_
  cases childOf d x.name with
  | error e => simp [Except.toOption]
  | ok path => simp [Except.toOption]

theorem mem_directoriesOf : d ∈ directoriesOf (entriesOf directory (answer directory)) ↔
    Inside answer d directory := by
  unfold directoriesOf Inside
  simp only [List.mem_map, List.mem_filter, Entry.isDirectory_iff]
  constructor
  · rintro ⟨⟨p, e⟩, ⟨hmem, rfl⟩, rfl⟩
    exact ⟨p, rfl, mem_entriesOf.mp hmem⟩
  · rintro ⟨p, rfl, hlists⟩
    exact ⟨(p, .directory), ⟨mem_entriesOf.mpr hlists, rfl⟩, rfl⟩

/-! ## The loop -/

/-- The loop, of a server that answers at once. -/
abbrev turnsOf (answer : Option RelPath → List Listed) :
    Nat → List (Option RelPath) → Snapshot → Option Snapshot := walkFrom (m := Id) answer

/-- A directory takes so many turns, after which what is gathered from it has been noted. -/
def Explores (answer : Option RelPath → List Listed) (directories : List (Option RelPath)) : Prop :=
  ∃ turns, ∃ found : List (RelPath × Entry),
    (∀ p e, (p, e) ∈ found ↔ ∃ d ∈ directories, Gathered answer d p e) ∧
    ∀ more pending snapshot, turnsOf answer (turns + more) (directories ++ pending) snapshot =
      turnsOf answer more pending (noted snapshot found)

theorem explores_all {directories : List (Option RelPath)}
    (h : ∀ d ∈ directories, Explores answer [d]) : Explores answer directories := by
  induction directories with
  | nil => exact ⟨0, [], by simp, fun more pending snapshot => by rw [Nat.zero_add]; rfl⟩
  | cons d directories ih =>
    obtain ⟨n, found, hmem, hrun⟩ := h d List.mem_cons_self
    obtain ⟨n', found', hmem', hrun'⟩ := ih fun d hd => h d (List.mem_cons_of_mem _ hd)
    refine ⟨n + n', found ++ found', fun p e => ?_, fun more pending snapshot => ?_⟩
    · rw [List.mem_append, hmem, hmem']
      simp
    · rw [Nat.add_assoc]
      refine (hrun (n' + more) (directories ++ pending) snapshot).trans ?_
      rw [hrun' more pending, noted, noted, noted, List.foldl_append]

/-- What is gathered from a directory is listed there, or gathered from a directory in it. -/
theorem gathered_iff : Gathered answer d p e ↔
    Lists answer d p e ∨ ∃ c, Inside answer c d ∧ Gathered answer c p e := by
  constructor
  · rintro ⟨c, hreach, hlists⟩
    rcases Relation.ReflTransGen.cases_tail hreach with rfl | ⟨b, hcb, hbd⟩
    · exact Or.inl hlists
    · exact Or.inr ⟨b, hbd, c, hcb, hlists⟩
  · rintro (hlists | ⟨c, hcd, b, hbc, hlists⟩)
    · exact ⟨d, .refl, hlists⟩
    · exact ⟨b, hbc.tail hcd, hlists⟩

/-- **A directory below which directories end takes finitely many turns.** -/
theorem explores (h : Acc (Inside answer) d) : Explores answer [d] := by
  induction h with
  | intro d _ ih =>
    have hdeeper : Explores answer (directoriesOf (entriesOf d (answer d))).reverse :=
      explores_all fun c hc => ih c (mem_directoriesOf.mp (List.mem_reverse.mp hc))
    obtain ⟨turns, found, hmem, hrun⟩ := hdeeper
    refine ⟨1 + turns, entriesOf d (answer d) ++ found, fun p e => ?_, fun more pending snapshot => ?_⟩
    · rw [List.mem_append, mem_entriesOf, hmem]
      simp only [List.mem_reverse, mem_directoriesOf, List.mem_singleton, exists_eq_left]
      exact gathered_iff.symm
    · rw [show 1 + turns + more = (turns + more) + 1 from by omega]
      show turnsOf answer (turns + more) (note d (answer d) snapshot pending).2
        (note d (answer d) snapshot pending).1 = _
      rw [note_eq]
      refine (hrun more pending _).trans ?_
      rw [noted, noted, noted, List.foldl_append]

/-! ## What is gathered -/

theorem segments_of_lists (ht : Tree answer) (hd : Relation.ReflTransGen (Inside answer) d none)
    (h : Lists answer d p e) : ∃ x ∈ answer d, x.entry = e ∧ p.segments = levels d ++ [x.name] := by
  obtain ⟨x, hx, hp, rfl⟩ := h
  obtain ⟨hne, hs⟩ := ht.name d hd x hx
  exact ⟨x, hx, rfl, (childOf_ok_iff hne hs).mp hp⟩

theorem levels_injective : Function.Injective levels := by
  intro a b h
  cases a with
  | none =>
    cases b with
    | none => rfl
    | some b => exact absurd h.symm (List.splitOn_ne_nil '/' b.str)
  | some a =>
    cases b with
    | none => exact absurd h (List.splitOn_ne_nil '/' a.str)
    | some b => rw [segments_injective h]

/-- A path is listed in one directory, with one entry. -/
theorem gathered_unique (ht : Tree answer) (h : Gathered answer none p e)
    (h' : Gathered answer none p e') : e = e' := by
  obtain ⟨d, hd, hlists⟩ := h
  obtain ⟨d', hd', hlists'⟩ := h'
  obtain ⟨x, hx, rfl, hsegments⟩ := segments_of_lists ht hd hlists
  obtain ⟨y, hy, rfl, hsegments'⟩ := segments_of_lists ht hd' hlists'
  obtain ⟨hlevels, hname⟩ := List.append_inj' (hsegments.symm.trans hsegments') rfl
  obtain rfl := levels_injective hlevels
  exact ht.once d hd x hx y hy (List.cons.inj hname).1

theorem get_noted {found : List (RelPath × Entry)} (h : (noted snapshot found).get p = some e) :
    (p, e) ∈ found ∨ snapshot.get p = some e := by
  induction found generalizing snapshot with
  | nil => exact Or.inr h
  | cons x found ih =>
    rcases ih h with hmem | hget
    · exact Or.inl (List.mem_cons_of_mem _ hmem)
    · rw [OrdMap.get_insert] at hget
      split_ifs at hget with hp
      · cases hget
        rw [hp]
        exact Or.inl List.mem_cons_self
      · exact Or.inr hget

theorem get_noted_isSome {found : List (RelPath × Entry)} :
    ((noted OrdMap.empty found).get p).isSome = true ↔ p ∈ found.map Prod.fst :=
  OrdMap.get_ofList_isSome found p

/-- **What `walk` gathers** of a server that answers as a tree whose directories end: every path that
is listed, with its entry, and nothing else. -/
theorem walk_spec (ht : Tree answer) (hacc : Acc (Inside answer) none) :
    ∃ turns, ∃ snapshot : Snapshot, (∀ more, walk (m := Id) answer (turns + more) = some snapshot) ∧
      ∀ p e, snapshot.get p = some e ↔ Gathered answer none p e := by
  obtain ⟨turns, found, hmem, hrun⟩ := explores hacc
  have hgathered : ∀ p e, (p, e) ∈ found ↔ Gathered answer none p e := fun p e => by
    rw [hmem]
    simp
  refine ⟨turns, noted OrdMap.empty found, fun more => ?_, fun p e => ⟨fun h => ?_, fun h => ?_⟩⟩
  · have hdone : turnsOf answer more [] (noted OrdMap.empty found) =
        some (noted OrdMap.empty found) := by
      cases more <;> rfl
    exact (hrun more [] OrdMap.empty).trans hdone
  · rcases get_noted h with hfound | hnone
    · exact (hgathered p e).mp hfound
    · cases hnone
  · have hfound := (hgathered p e).mpr h
    obtain ⟨e', he'⟩ := Option.isSome_iff_exists.mp
      (get_noted_isSome.mpr (List.mem_map_of_mem (f := Prod.fst) hfound))
    rcases get_noted he' with hfound' | hnone
    · rw [gathered_unique ht h ((hgathered p e').mp hfound')]
      exact he'
    · cases hnone

/-- The parent of what is gathered is gathered, as a directory. -/
theorem treeShaped_of_gathered (ht : Tree answer)
    (hget : ∀ p e, snapshot.get p = some e ↔ Gathered answer none p e) : snapshot.TreeShaped := by
  intro p e hp q hq
  obtain ⟨d, hd, hlists⟩ := (hget p e).mp hp
  obtain ⟨x, hx, rfl, hsegments⟩ := segments_of_lists ht hd hlists
  obtain ⟨hne, hs⟩ := ht.name d hd x hx
  obtain ⟨name, hname, hstr⟩ := RelPath.parent_eq_some_iff.mp hq
  have hparent : p.segments = q.segments ++ [name] := by
    unfold RelPath.segments
    rw [hstr, splitOn_append_slash, splitOn_of_not_mem hname]
  have hlevels : levels d = levels (some q) :=
    (List.append_inj' (hsegments.symm.trans hparent) rfl).1
  obtain rfl := levels_injective hlevels
  rcases Relation.ReflTransGen.cases_head hd with h | ⟨c, ⟨r, hr, hlists'⟩, hc⟩
  · cases h
  · cases hr
    exact (hget q .directory).mpr ⟨c, hc, hlists'⟩

end Remote

end Stashden.Sync
