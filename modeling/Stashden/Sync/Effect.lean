import Stashden.Sync.Engine

/-!
# What an action does to the two sides and the record

`Sides` is a world as `reconcile` sees it: what stands at each path that is not hidden, on the disk
and on the server, and what is recorded. `effect` says what an action does to it, path by path, and
`Enabled` what must hold for it to succeed. `apply_ok` is the refinement: a successful run of
`Engine::apply` makes exactly the action's effect, from a state it is enabled in.

Everything about whole passes is proved over `effect`; only this module reads `apply`.
-/

namespace Stashden.Sync

open Lib Stashden.Core RelPath EngineM

/-- The two sides and the record, path by path. -/
@[ext] structure Sides where
  disk : RelPath → Option Entry
  server : RelPath → Option Entry
  base : RelPath → Option Entry

/-- The world without its hidden names. -/
def World.sides (u : Unicode) (w : World) : Sides where
  disk p := if hides u p then none else w.disk.get p
  server p := if hides u p then none else w.server.tree.get p
  base := w.state.base.get

/-- Directories at everything above a path. -/
def dirsAbove (p : RelPath) (f : RelPath → Option Entry) : RelPath → Option Entry := fun q =>
  if p.isInside q then some .directory else f q

/-- Nothing left at a path nor inside it. -/
def cut (p : RelPath) (f : RelPath → Option Entry) : RelPath → Option Entry := fun q =>
  if atOrInside p q then none else f q

/-- A file put at a path; a new one brings the directories above it. -/
def put (p : RelPath) (e : Option Entry) (f : RelPath → Option Entry) : RelPath → Option Entry :=
  Function.update (if f p = none then dirsAbove p f else f) p e

/-- Where directories can be made: no file is in the way. -/
def FreeAbove (p : RelPath) (f : RelPath → Option Entry) : Prop :=
  ∀ q, p.isInside q = true → f q = none ∨ f q = some .directory

/-- `download`, on the two sides. -/
def Sides.fetch (listing : RelPath → Option Entry) (p : RelPath) (s : Sides) : Sides :=
  { s with
    disk := Function.update (dirsAbove p s.disk) p (s.server p)
    base := Function.update s.base p (listing p) }

/-- The rename of a file onto its copy. -/
def Sides.moveTo (p c : RelPath) (s : Sides) : Sides :=
  { s with disk := Function.update (Function.update s.disk p none) c (s.disk p) }

/-- What an action does, given what the scan and the listing hold. -/
def effect (scanned listing : RelPath → Option Entry) : Action → Sides → Sides
  | .createLocalDirectory p, s =>
    { s with
      disk := Function.update (dirsAbove p s.disk) p (some .directory)
      base := Function.update s.base p (some .directory) }
  | .createRemoteDirectory p, s =>
    { s with
      server := Function.update (dirsAbove p s.server) p (some .directory)
      base := Function.update s.base p (some .directory) }
  | .download p, s => s.fetch listing p
  | .upload p, s =>
    { s with
      server := put p (s.disk p) s.server
      base := dirsAbove p (Function.update s.base p (scanned p)) }
  | .deleteLocal p, s | .removeLocalDirectory p, s =>
    { s with disk := Function.update s.disk p none, base := Function.update s.base p none }
  | .deleteRemote p, s | .removeRemoteDirectory p, s =>
    { s with server := cut p s.server, base := Function.update s.base p none }
  | .forget p, s => { s with base := Function.update s.base p none }
  | .keepBoth p c, s =>
    Sides.fetch listing p
      { s.moveTo p c with
        server := put c (s.disk p) s.server
        base := Function.update (Function.update s.base c (scanned p)) p none }
  | .setAside p c, s =>
    Sides.fetch listing p { s.moveTo p c with base := Function.update s.base p none }

/-- What a download needs: the file on the server, no directory in its place, none in its way. -/
def CanFetch (p : RelPath) (s : Sides) : Prop :=
  (∃ t n, s.server p = some (.file t n)) ∧ s.disk p ≠ some .directory ∧ FreeAbove p s.disk

/-- What a rename onto a copy, and a download in its place, needs: a file to move, no directory in
the copy's place, no file in the way of the download. -/
def CanMove (p c : RelPath) (s : Sides) : Prop :=
  (∃ t n, s.disk p = some (.file t n)) ∧ s.disk c ≠ some .directory ∧ FreeAbove p s.disk

/-- What must hold for an action to succeed. -/
def Enabled (listing : RelPath → Option Entry) : Action → Sides → Prop
  | .createLocalDirectory p, s =>
    (s.disk p = none ∨ s.disk p = some .directory) ∧ FreeAbove p s.disk
  | .createRemoteDirectory p, s => s.server p = none ∧ FreeAbove p s.server
  | .download p, s => CanFetch p s
  | .upload p, s =>
    (∃ t n, s.disk p = some (.file t n)) ∧
      ((∃ t n m, listing p = some (.file t n) ∧ s.server p = some (.file t m)) ∨
        ((∀ t n, listing p ≠ some (.file t n)) ∧ s.server p = none ∧ FreeAbove p s.server))
  | .deleteLocal p, s => s.disk p ≠ some .directory
  | .removeLocalDirectory p, s =>
    s.disk p = some .directory ∧ ∀ q, q.isInside p = true → s.disk q = none
  | .deleteRemote p, s | .removeRemoteDirectory p, s => s.server p ≠ none
  | .forget _, _ => True
  | .keepBoth p c, s => CanMove p c s ∧ s.server c = none ∧ FreeAbove c s.server
  | .setAside p c, s => CanMove p c s

section Refinement

variable {u : Unicode} {pass : Pass} {remote : Snapshot} {w w' : World} {p c : RelPath}

theorem sides_disk (h : hides u p = false) : (w.sides u).disk p = w.disk.get p := by
  simp [World.sides, h]

theorem sides_server (h : hides u p = false) : (w.sides u).server p = w.server.tree.get p := by
  simp [World.sides, h]

/-! ## Directories -/

theorem createDirAll_ok {disk disk' : Snapshot} (h : createDirAll p disk = .ok disk') (q : RelPath) :
    disk'.get q = (if q = p ∨ p.isInside q = true then some .directory else disk.get q) ∧
      (q = p ∨ p.isInside q = true → disk.get q = none ∨ disk.get q = some .directory) := by
  unfold createDirAll at h
  split at h
  · rename_i d hd
    cases h
    refine ⟨?_, fun hq => not_file_of_makeDirectories hd (mem_chain_iff.mpr hq)⟩
    rw [get_makeDirectories hd]
    simp only [mem_chain_iff]
  · exact absurd h (by simp)

theorem createParents_ok {disk disk' : Snapshot} (h : createParents p disk = .ok disk')
    (q : RelPath) :
    disk'.get q = (if p.isInside q then some .directory else disk.get q) ∧
      (p.isInside q = true → disk.get q = none ∨ disk.get q = some .directory) := by
  unfold createParents at h
  cases hp : p.parent with
  | none =>
    simp only [hp] at h
    cases h
    have hno : p.isInside q = false := by
      rw [← Bool.not_eq_true, isInside_iff_parent, hp]
      simp
    simp [hno]
  | some d =>
    simp only [hp] at h
    have hin : p.isInside q = true ↔ q = d ∨ d.isInside q = true := by
      rw [isInside_iff_parent, hp]
      constructor
      · rintro ⟨q', hq', h⟩
        obtain rfl := Option.some.inj hq'
        exact h.imp_left Eq.symm
      · exact fun h => ⟨d, rfl, h.imp_left Eq.symm⟩
    simp only [hin]
    exact createDirAll_ok h q

/-! ## Downloads and renames -/

/-- The staged file's name is hidden, and is not the destination's. -/
theorem partialOf_spec {staged : RelPath} (h : partialOf p = some staged) :
    hides u staged = true ∧ staged.parent = p.parent := by
  unfold partialOf at h
  split_ifs at h with hcheck
  obtain ⟨q, hq, hpar, hname⟩ := withFileName_spec p hcheck
  rw [hq] at h
  cases h
  exact ⟨hides_of_partialSuffix (hname ▸ List.suffix_append _ _), hpar⟩

theorem renameFile_ok {reason : Reason} {src dst : RelPath} {disk disk' : Snapshot}
    (h : renameFile reason src dst disk = .ok disk') :
    ∃ t n, disk.get src = some (.file t n) ∧ disk.get dst ≠ some .directory ∧
      ∀ q, disk'.get q =
        if q = dst then some (.file t n) else if q = src then none else disk.get q := by
  unfold renameFile at h
  split at h
  · rename_i t n hsrc
    split_ifs at h with hd
    cases h
    refine ⟨t, n, hsrc, hd, fun q => ?_⟩
    rw [OrdMap.get_insert, OrdMap.get_erase]
  · exact absurd h (by simp)

/-- **A download** takes the server's file, through a staged name nobody sees. -/
theorem download_ok {x : Unit} (hp : hides u p = false)
    (h : download pass remote p w = .ok x w') :
    CanFetch p (w.sides u) ∧ w'.sides u = (w.sides u).fetch remote.get p := by
  simp only [download, downloadTo, ok_bind, ok_orFail, ok_onDisk, ok_readFile, ok_onState] at h
  obtain ⟨e, _, ⟨hlisted, rfl⟩, -, _, ⟨d₁, hd₁, rfl⟩, staged, _, ⟨hst, rfl⟩, -, _,
    ⟨⟨t, n⟩, _, ⟨hfile, rfl⟩, d₂, hd₂, rfl⟩, -, _, ⟨d₃, hd₃, rfl⟩, rfl⟩ := h
  simp only at hfile hd₂ hd₃
  split_ifs at hd₂ with hdir
  cases hd₂
  obtain ⟨t', n', hs, hnd, hget⟩ := renameFile_ok hd₃
  rw [OrdMap.get_insert_self] at hs
  cases hs
  obtain ⟨hhid, hpar⟩ := partialOf_spec (u := u) hst
  have hne : p ≠ staged := fun e => by rw [e, hhid] at hp; exact absurd hp (by simp)
  rw [OrdMap.get_insert_of_ne _ _ hne, (createParents_ok hd₁ p).1, not_isInside_self] at hnd
  refine ⟨⟨⟨t, n, by rw [sides_server hp]; exact hfile⟩, by rw [sides_disk hp]; exact hnd,
    fun q hq => ?_⟩, Sides.ext (funext fun q => ?_) rfl (funext fun q => ?_)⟩
  · rw [sides_disk (not_hides_above hq hp)]
    exact (createParents_ok hd₁ q).2 hq
  · show (if hides u q then none else d₃.get q) = Function.update (dirsAbove p _) p _ q
    by_cases hqp : q = p
    · subst hqp
      rw [Function.update_self, sides_server hp, if_neg (by simp [hp]), hget, if_pos rfl]
      exact hfile.symm
    rw [Function.update_of_ne hqp]
    by_cases hq : hides u q = true
    · have hno : p.isInside q = false := by
        rw [← Bool.not_eq_true]
        exact fun hin => by rw [not_hides_above hin hp] at hq; exact absurd hq (by simp)
      simp [hq, dirsAbove, hno, World.sides]
    · have hqs : q ≠ staged := fun e => hq (e ▸ hhid)
      rw [if_neg hq, hget, if_neg hqp, if_neg hqs, OrdMap.get_insert_of_ne _ _ hqs,
        (createParents_ok hd₁ q).1]
      simp [dirsAbove, World.sides, hq]
  · refine (SyncState.base_record _ _ _ _ _).trans ?_
    simp [Sides.fetch, World.sides, Function.update_apply, hlisted]

/-- A rename onto a copy nobody hides, on the sides. -/
theorem renameFile_sides {reason : Reason} {d : Snapshot} (hp : hides u p = false)
    (hc : hides u c = false) (h : renameFile reason p c w.disk = .ok d) :
    (∃ t n, (w.sides u).disk p = some (.file t n)) ∧ (w.sides u).disk c ≠ some .directory ∧
      World.sides u { w with disk := d } = (w.sides u).moveTo p c := by
  obtain ⟨t, n, hs, hnd, hget⟩ := renameFile_ok h
  refine ⟨⟨t, n, by rw [sides_disk hp]; exact hs⟩, by rw [sides_disk hc]; exact hnd,
    Sides.ext (funext fun q => ?_) rfl rfl⟩
  show (if hides u q then none else d.get q) = ((w.sides u).moveTo p c).disk q
  unfold Sides.moveTo
  simp only
  by_cases hq : hides u q = true
  · have hqc : q ≠ c := fun e => by rw [e, hc] at hq; exact absurd hq (by simp)
    have hqp : q ≠ p := fun e => by rw [e, hp] at hq; exact absurd hq (by simp)
    rw [Function.update_of_ne hqc, Function.update_of_ne hqp]
    simp [hq, World.sides]
  · rw [if_neg hq, hget, sides_disk hp, hs, Function.update_apply, Function.update_apply,
      sides_disk (by simpa using hq)]

/-- What is free above a path once its file was moved away was free before. -/
theorem freeAbove_of_moved {s : Sides} {t : Str} {n : Nat} (hs : s.disk p = some (.file t n))
    (h : FreeAbove p (s.moveTo p c).disk) : FreeAbove p s.disk := by
  intro q hq
  have hfree := h q hq
  unfold Sides.moveTo at hfree
  simp only [Function.update_apply, if_neg (ne_of_isInside hq).symm] at hfree
  split_ifs at hfree with hqc
  · rw [hs] at hfree
    exact absurd hfree (by simp)
  · exact hfree

/-! ## Uploads -/

/-- What a PUT needs of the server. -/
def CanPut (expect : Expect) (p : RelPath) (f : RelPath → Option Entry) : Prop :=
  (∃ tag n, expect = .etag tag ∧ f p = some (.file tag n)) ∨
    (expect = .absent ∧ f p = none ∧ FreeAbove p f)

theorem putFile_ok {tag : Str} {size : Nat} {expect : Expect} {server server' : Server}
    (h : putFile p tag size expect server = .ok server') :
    CanPut expect p server.tree.get ∧
      (∀ q, server'.tree.get q = put p (some (.file tag size)) server.tree.get q) ∧
      server'.trash = server.trash := by
  unfold putFile at h
  split at h
  · exact absurd h (by simp)
  · exact absurd h (by simp)
  · rename_i stored n named hget
    split_ifs at h with htag
    cases h
    refine ⟨Or.inl ⟨stored, n, by rw [htag], hget⟩, fun q => ?_, rfl⟩
    show (server.tree.insert _ _).get q = _
    rw [OrdMap.get_insert, put, Function.update_apply]
    simp [hget]
  · exact absurd h (by simp)
  · rename_i hget
    split at h
    · rename_i tree htree
      cases h
      refine ⟨Or.inr ⟨rfl, hget, fun q hq => ?_⟩, fun q => ?_, rfl⟩
      · exact not_file_of_makeDirectories htree (by rwa [List.mem_reverse, mem_ancestors_iff])
      · show (tree.insert _ _).get q = _
        rw [OrdMap.get_insert, get_makeDirectories htree, put, if_pos hget, Function.update_apply]
        simp only [List.mem_reverse, mem_ancestors_iff, dirsAbove]
    · exact absurd h (by simp)

/-- Hiding commutes with a file put at a path nobody hides. -/
theorem put_masked {e : Option Entry} {f : RelPath → Option Entry} (hp : hides u p = false)
    (q : RelPath) :
    (if hides u q then none else put p e f q) =
      put p e (fun q => if hides u q then none else f q) q := by
  unfold put
  by_cases hqp : q = p
  · subst hqp
    simp [hp]
  · rw [Function.update_of_ne hqp, Function.update_of_ne hqp]
    by_cases hq : hides u q = true
    · have hno : p.isInside q = false := by
        rw [← Bool.not_eq_true]
        exact fun hin => by rw [not_hides_above hin hp] at hq; exact absurd hq (by simp)
      by_cases hf : f p = none <;> simp [hq, hp, hf, dirsAbove, hno]
    · by_cases hf : f p = none <;> simp [hq, hp, hf, dirsAbove]

/-- **An upload** sends what stands at the source. -/
theorem uploadFrom_ok {source : RelPath} {expect : Expect} {x : Unit} (hp : hides u p = false)
    (hs : hides u source = false) (h : uploadFrom p source expect w = .ok x w') :
    (∃ t n, (w.sides u).disk source = some (.file t n)) ∧
      CanPut expect p (w.sides u).server ∧
      w'.sides u = { w.sides u with
        server := put p ((w.sides u).disk source) (w.sides u).server } ∧
      w'.disk = w.disk ∧ w'.state = w.state ∧ w'.server.trash = w.server.trash := by
  simp only [uploadFrom, ok_bind, ok_readFile, ok_onServer] at h
  obtain ⟨⟨t, n⟩, _, ⟨hfile, rfl⟩, server', hput, rfl⟩ := h
  obtain ⟨hcan, hget, htrash⟩ := putFile_ok hput
  simp only at hfile
  refine ⟨⟨t, n, by rw [sides_disk hs]; exact hfile⟩, ?_, Sides.ext rfl (funext fun q => ?_) rfl,
    rfl, rfl, htrash⟩
  · rcases hcan with ⟨tag, m, he, hf⟩ | ⟨he, hf, hfree⟩
    · exact Or.inl ⟨tag, m, he, by rw [sides_server hp]; exact hf⟩
    · refine Or.inr ⟨he, by rw [sides_server hp]; exact hf, fun q hq => ?_⟩
      rw [sides_server (not_hides_above hq hp)]
      exact hfree q hq
  · show (if hides u q then none else server'.tree.get q) = _
    rw [hget, put_masked hp, sides_disk hs, hfile]
    rfl

theorem recordDirectoriesAbove_base (state : SyncState) (q : RelPath) :
    (recordDirectoriesAbove p state).base.get q = dirsAbove p state.base.get q := by
  have h : ∀ (ds : List RelPath) (state : SyncState),
      (ds.foldl (fun state d => state.record d .directory none) state).base.get q =
        if q ∈ ds then some .directory else state.base.get q := by
    intro ds
    induction ds with
    | nil => simp
    | cons d ds ih =>
      intro state
      rw [List.foldl_cons, ih, SyncState.base_record]
      by_cases hq : q ∈ ds <;> by_cases hd : q = d <;> simp [hq, hd]
  unfold recordDirectoriesAbove dirsAbove
  rw [h]
  simp only [mem_ancestors_iff]

/-! ## Removals -/

theorem remove_ok {server server' : Server} (h : remove p server = .ok server') :
    server.tree.get p ≠ none ∧ (∀ q, server'.tree.get q = cut p server.tree.get q) ∧
      server'.trash = server.trash ++ server.tree.entries.filter fun e => atOrInside p e.1 := by
  unfold remove at h
  split at h
  · exact absurd h (by simp)
  · rename_i e he
    cases h
    refine ⟨by simp [he], fun q => ?_, rfl⟩
    rw [OrdMap.get_retain]
    unfold cut
    by_cases hq : atOrInside p q = true <;> simp [hq]

theorem createDirectory_ok {server server' : Server} (h : createDirectory p server = .ok server') :
    server.tree.get p = none ∧ FreeAbove p server.tree.get ∧
      (∀ q, server'.tree.get q =
        Function.update (dirsAbove p server.tree.get) p (some .directory) q) ∧
      server'.trash = server.trash := by
  unfold createDirectory at h
  split at h
  · exact absurd h (by simp)
  · rename_i hget
    split at h
    · rename_i tree htree
      cases h
      refine ⟨hget, fun q hq => not_file_of_makeDirectories htree (mem_chain_iff.mpr (Or.inr hq)),
        fun q => ?_, rfl⟩
      show tree.get q = _
      rw [get_makeDirectories htree, Function.update_apply]
      simp only [mem_chain_iff, dirsAbove]
      by_cases hq : q = p <;> simp [hq]
    · exact absurd h (by simp)

theorem removeFile_ok {disk disk' : Snapshot} (h : removeFile p disk = .ok disk') :
    disk.get p ≠ some .directory ∧
      ∀ q, disk'.get q = if q = p then none else disk.get q := by
  unfold removeFile at h
  split at h
  · rename_i hget
    cases h
    refine ⟨by simp [hget], fun q => ?_⟩
    split_ifs with hq
    · rw [hq, hget]
    · rfl
  · rename_i hget
    cases h
    exact ⟨by simp [hget], fun q => OrdMap.get_erase _ _ _⟩
  · exact absurd h (by simp)

/-- What the loop of `remove_directory` takes is hidden. -/
theorem removeIgnored_ok {disk disk' : Snapshot} (h : removeIgnored u p disk = .ok disk') :
    disk.get p = some .directory ∧ ∀ q, hides u q = false → disk'.get q = disk.get q := by
  unfold removeIgnored at h
  split_ifs at h with hdir
  cases h
  refine ⟨hdir, fun q hq => ?_⟩
  have hname : isIgnored u q.fileName = false :=
    hides_eq_false_iff.mp hq _ (mem_segments_iff.mpr (Or.inl rfl))
  rw [OrdMap.get_retain]
  simp [hname]

theorem removeIgnored_back {disk disk' : Snapshot} {e : Entry}
    (h : removeIgnored u p disk = .ok disk') (hq : disk'.get q = some e) : disk.get q = some e := by
  unfold removeIgnored at h
  split_ifs at h
  cases h
  rw [OrdMap.get_retain] at hq
  split_ifs at hq
  exact hq

theorem removeEmpty_ok {disk disk' : Snapshot} (h : removeEmpty p disk = .ok disk') :
    (∀ q, q.isInside p = true → disk.get q = none) ∧
      ∀ q, disk'.get q = if q = p then none else disk.get q := by
  unfold removeEmpty at h
  split_ifs at h with hempty
  cases h
  refine ⟨fun q hq => ?_, fun q => OrdMap.get_erase _ _ _⟩
  by_contra hne
  obtain ⟨e, he⟩ := Option.ne_none_iff_exists'.mp hne
  have := hempty.2 q (OrdMap.mem_keys_iff.mpr ⟨e, he⟩)
  rw [hq] at this
  exact absurd this (by simp)

/-! ## Every action -/

/-- Hiding commutes with directories made above and at a path nobody hides. -/
theorem dirs_masked {f : RelPath → Option Entry} (hp : hides u p = false) (q : RelPath) :
    (if hides u q then none
      else if q = p ∨ p.isInside q = true then some .directory else f q) =
      Function.update (dirsAbove p fun q => if hides u q then none else f q) p
        (some .directory) q := by
  rw [Function.update_apply]
  by_cases hqp : q = p
  · subst hqp
    simp [hp]
  · by_cases hin : p.isInside q = true
    · simp [hqp, hin, dirsAbove, not_hides_above hin hp]
    · simp [hqp, hin, dirsAbove]

/-- Hiding commutes with taking one path away. -/
theorem update_none_masked {f g : RelPath → Option Entry}
    (h : ∀ q, hides u q = false → g q = if q = p then none else f q) (q : RelPath) :
    (if hides u q then none else g q) =
      Function.update (fun q => if hides u q then none else f q) p none q := by
  rw [Function.update_apply]
  by_cases hq : hides u q = true
  · simp [hq]
  · rw [if_neg hq, h q (by simpa using hq)]
    simp [hq]

/-- A removal, on the sides. -/
theorem remove_sides {server : Server} {r : Report}
    (hp : hides u p = false) (hs : remove p w.server = .ok server) :
    (w.sides u).server p ≠ none ∧
      World.sides u { w with server := server, state := w.state.forget p, report := r } =
        { w.sides u with
          server := cut p (w.sides u).server
          base := Function.update (w.sides u).base p none } := by
  obtain ⟨hne, hget, -⟩ := remove_ok hs
  refine ⟨by rw [sides_server hp]; exact hne, Sides.ext rfl (funext fun q => ?_)
    (funext fun q => ?_)⟩
  · show (if hides u q then none else server.tree.get q) = cut p _ q
    rw [hget]
    unfold cut
    by_cases hq : atOrInside p q = true <;> simp [hq, World.sides]
  · refine (SyncState.base_forget _ _ _).trans ?_
    simp [World.sides, Function.update_apply]

/-- The subject and the copy of an action are not hidden; a record may be forgotten of any path. -/
def Action.Seen (u : Unicode) : Action → Prop
  | .forget _ => True
  | .keepBoth p c | .setAside p c => hides u p = false ∧ hides u c = false
  | .createLocalDirectory p | .createRemoteDirectory p | .download p | .upload p | .deleteLocal p
  | .deleteRemote p | .removeLocalDirectory p | .removeRemoteDirectory p => hides u p = false

theorem apply_createLocalDirectory {x : Unit} (hp : hides u p = false)
    (h : apply u pass remote (.createLocalDirectory p) w = .ok x w') :
    Enabled remote.get (.createLocalDirectory p) (w.sides u) ∧ w'.sides u =
      effect pass.scan.snapshot.get remote.get (.createLocalDirectory p) (w.sides u) := by
  simp only [apply, ok_bind, ok_onDisk, ok_onState, ok_onReport] at h
  obtain ⟨-, _, ⟨d, hd, rfl⟩, -, _, rfl, rfl⟩ := h
  have hget := createDirAll_ok hd
  refine ⟨⟨?_, fun q hq => ?_⟩, Sides.ext (funext fun q => ?_) rfl (funext fun q => ?_)⟩
  · rw [sides_disk hp]
    exact (hget p).2 (Or.inl rfl)
  · rw [sides_disk (not_hides_above hq hp)]
    exact (hget q).2 (Or.inr hq)
  · show (if hides u q then none else d.get q) = _
    rw [(hget q).1]
    exact dirs_masked hp q
  · refine (SyncState.base_record _ _ _ _ _).trans ?_
    simp [effect, World.sides, Function.update_apply]

theorem apply_createRemoteDirectory {x : Unit} (hp : hides u p = false)
    (h : apply u pass remote (.createRemoteDirectory p) w = .ok x w') :
    Enabled remote.get (.createRemoteDirectory p) (w.sides u) ∧ w'.sides u =
      effect pass.scan.snapshot.get remote.get (.createRemoteDirectory p) (w.sides u) := by
  simp only [apply, ok_bind, ok_onServer, ok_onState, ok_onReport] at h
  obtain ⟨-, _, ⟨server, hs, rfl⟩, -, _, rfl, rfl⟩ := h
  obtain ⟨hnone, hfree, hget, -⟩ := createDirectory_ok hs
  refine ⟨⟨by rw [sides_server hp]; exact hnone, fun q hq => ?_⟩,
    Sides.ext rfl (funext fun q => ?_) (funext fun q => ?_)⟩
  · rw [sides_server (not_hides_above hq hp)]
    exact hfree q hq
  · show (if hides u q then none else server.tree.get q) = _
    refine Eq.trans ?_ (dirs_masked hp q)
    rw [hget, Function.update_apply]
    unfold dirsAbove
    by_cases hqp : q = p <;> by_cases hin : p.isInside q = true <;> simp [hqp, hin]
  · refine (SyncState.base_record _ _ _ _ _).trans ?_
    simp [effect, World.sides, Function.update_apply]

theorem apply_removeLocalDirectory {x : Unit} (hp : hides u p = false)
    (h : apply u pass remote (.removeLocalDirectory p) w = .ok x w') :
    Enabled remote.get (.removeLocalDirectory p) (w.sides u) ∧ w'.sides u =
      effect pass.scan.snapshot.get remote.get (.removeLocalDirectory p) (w.sides u) := by
  simp only [apply, ok_bind, ok_onDisk, ok_onState, ok_onReport] at h
  obtain ⟨-, _, ⟨d₁, hd₁, rfl⟩, -, _, ⟨d₂, hd₂, rfl⟩, -, _, rfl, rfl⟩ := h
  obtain ⟨hdir, hsame⟩ := removeIgnored_ok hd₁
  obtain ⟨hempty, hget⟩ := removeEmpty_ok hd₂
  refine ⟨⟨by rw [sides_disk hp]; exact hdir, fun q hq => ?_⟩,
    Sides.ext (funext fun q => ?_) rfl (funext fun q => ?_)⟩
  · by_cases hh : hides u q = true
    · simp [World.sides, hh]
    · rw [sides_disk (by simpa using hh), ← hsame q (by simpa using hh)]
      exact hempty q hq
  · refine update_none_masked (fun q hq => ?_) q
    exact (hget q).trans (by rw [hsame q hq])
  · refine (SyncState.base_forget _ _ _).trans ?_
    simp [effect, World.sides, Function.update_apply]

theorem apply_upload {x : Unit} (hp : hides u p = false)
    (h : apply u pass remote (.upload p) w = .ok x w') :
    Enabled remote.get (.upload p) (w.sides u) ∧ w'.sides u =
      effect pass.scan.snapshot.get remote.get (.upload p) (w.sides u) := by
  simp only [apply, upload, ok_bind, ok_orFail, ok_onState, ok_onReport] at h
  obtain ⟨_, _, ⟨scanned, _, ⟨hscan, rfl⟩, _, w₁, hup, hrec⟩, hrep⟩ := h
  obtain ⟨hfile, hcan, hsides, -, hstate, -⟩ := uploadFrom_ok hp hp hup
  refine ⟨⟨hfile, ?_⟩, ?_⟩
  · rcases hcan with ⟨tag, m, he, hf⟩ | ⟨he, hf, hfree⟩
    · unfold expectOf at he
      split at he
      · rename_i t n hl
        cases he
        exact Or.inl ⟨_, n, m, hl, hf⟩
      · exact absurd he (by simp)
    · unfold expectOf at he
      split at he
      · exact absurd he (by simp)
      · rename_i hl
        exact Or.inr ⟨hl, hf, hfree⟩
  · have hw : w'.sides u = { w₁.sides u with
        base := (recordDirectoriesAbove p
          (w₁.state.record p scanned.entry scanned.mtimeMs)).base.get } := by
      rw [hrep, hrec]
      rfl
    rw [hw, hsides]
    refine Sides.ext rfl rfl (funext fun q => ?_)
    refine (recordDirectoriesAbove_base _ _).trans ?_
    show dirsAbove p _ q = dirsAbove p _ q
    unfold dirsAbove
    split_ifs
    · rfl
    · rw [SyncState.base_record, Function.update_apply, LocalScan.get_snapshot, hscan, hstate]
      rfl

theorem apply_deleteLocal {x : Unit} (hp : hides u p = false)
    (h : apply u pass remote (.deleteLocal p) w = .ok x w') :
    Enabled remote.get (.deleteLocal p) (w.sides u) ∧ w'.sides u =
      effect pass.scan.snapshot.get remote.get (.deleteLocal p) (w.sides u) := by
  simp only [apply, ok_bind, ok_onDisk, ok_onState, ok_onReport] at h
  obtain ⟨-, _, ⟨d, hd, rfl⟩, -, _, rfl, rfl⟩ := h
  obtain ⟨hnd, hget⟩ := removeFile_ok hd
  refine ⟨show (w.sides u).disk p ≠ _ by rw [sides_disk hp]; exact hnd,
    Sides.ext (funext fun q => ?_) rfl (funext fun q => ?_)⟩
  · exact update_none_masked (fun q _ => hget q) q
  · refine (SyncState.base_forget _ _ _).trans ?_
    simp [effect, World.sides, Function.update_apply]

theorem apply_forget {x : Unit} (h : apply u pass remote (.forget p) w = .ok x w') :
    Enabled remote.get (.forget p) (w.sides u) ∧ w'.sides u =
      effect pass.scan.snapshot.get remote.get (.forget p) (w.sides u) := by
  simp only [apply, ok_onState] at h
  subst h
  refine ⟨trivial, Sides.ext rfl rfl (funext fun q => ?_)⟩
  refine (SyncState.base_forget _ _ _).trans ?_
  simp [effect, World.sides, Function.update_apply]

theorem apply_keepBoth {x : Unit} (hp : hides u p = false) (hc : hides u c = false)
    (h : apply u pass remote (.keepBoth p c) w = .ok x w') :
    Enabled remote.get (.keepBoth p c) (w.sides u) ∧ w'.sides u =
      effect pass.scan.snapshot.get remote.get (.keepBoth p c) (w.sides u) := by
  simp only [apply, ok_bind, ok_orFail, ok_onDisk, ok_onState, ok_onReport] at h
  obtain ⟨-, _, ⟨d, hd, hren⟩, scanned, _, ⟨hscan, rfl⟩, _, w₁, hup, -, w₂, hrec, _, w₃, hdown,
    hrep⟩ := h
  obtain ⟨⟨t, n, hfile⟩, hnd, hmoved⟩ := renameFile_sides hp hc hd
  rw [← hren] at hmoved
  obtain ⟨-, hcan, hsides, -, hstate, -⟩ := uploadFrom_ok hc hc hup
  obtain ⟨hfetch, hfetched⟩ := download_ok hp hdown
  have hsrc : ((w.sides u).moveTo p c).disk c = (w.sides u).disk p := Function.update_self _ _ _
  rw [hmoved] at hcan hsides
  have hw₂ : w₂.sides u =
      { (w.sides u).moveTo p c with
        server := put c ((w.sides u).disk p) (w.sides u).server
        base := Function.update
          (Function.update (w.sides u).base c (pass.scan.snapshot.get p)) p none } := by
    rw [hsrc] at hsides
    have hdisk := congrArg Sides.disk hsides
    have hserver := congrArg Sides.server hsides
    refine Sides.ext ?_ ?_ (funext fun q => ?_)
    · rw [hrec]
      exact hdisk
    · rw [hrec]
      exact hserver
    · have hb : w₁.state.base.get q = w.state.base.get q := by rw [hstate, hren]
      show w₂.state.base.get q = _
      rw [hrec, SyncState.base_forget, SyncState.base_record, hb, LocalScan.get_snapshot, hscan]
      simp [World.sides, Function.update_apply]
  refine ⟨⟨⟨⟨t, n, hfile⟩, hnd, freeAbove_of_moved (c := c) hfile ?_⟩, ?_⟩, ?_⟩
  · have hfree := hfetch.2.2
    rw [hw₂] at hfree
    exact hfree
  · rcases hcan with ⟨_, _, he, -⟩ | ⟨-, hnone, hfree⟩
    · exact absurd he (by simp)
    · exact ⟨hnone, hfree⟩
  · rw [hrep]
    show w₃.sides u = _
    rw [hfetched, hw₂]
    rfl

theorem apply_setAside {x : Unit} (hp : hides u p = false) (hc : hides u c = false)
    (h : apply u pass remote (.setAside p c) w = .ok x w') :
    Enabled remote.get (.setAside p c) (w.sides u) ∧ w'.sides u =
      effect pass.scan.snapshot.get remote.get (.setAside p c) (w.sides u) := by
  simp only [apply, ok_bind, ok_onDisk, ok_onState, ok_onReport] at h
  obtain ⟨-, _, ⟨d, hd, hren⟩, -, w₁, hrec, _, w₂, hdown, hrep⟩ := h
  obtain ⟨⟨t, n, hfile⟩, hnd, hmoved⟩ := renameFile_sides hp hc hd
  rw [← hren] at hmoved
  obtain ⟨hfetch, hfetched⟩ := download_ok hp hdown
  have hw₁ : w₁.sides u =
      { (w.sides u).moveTo p c with base := Function.update (w.sides u).base p none } := by
    rw [← hmoved, hrec]
    refine Sides.ext rfl rfl (funext fun q => ?_)
    refine (SyncState.base_forget _ _ _).trans ?_
    simp [hren, World.sides, Function.update_apply]
  refine ⟨⟨⟨t, n, hfile⟩, hnd, freeAbove_of_moved (c := c) hfile ?_⟩, ?_⟩
  · have hfree := hfetch.2.2
    rw [hw₁] at hfree
    exact hfree
  · rw [hrep]
    show w₂.sides u = _
    rw [hfetched, hw₁]
    rfl

/-- **An action that succeeds was enabled, and makes its effect.** -/
theorem apply_ok {a : Action} {x : Unit} (ha : a.Seen u)
    (h : apply u pass remote a w = .ok x w') :
    Enabled remote.get a (w.sides u) ∧
      w'.sides u = effect pass.scan.snapshot.get remote.get a (w.sides u) := by
  cases a with
  | createLocalDirectory p => exact apply_createLocalDirectory ha h
  | createRemoteDirectory p => exact apply_createRemoteDirectory ha h
  | removeLocalDirectory p => exact apply_removeLocalDirectory ha h
  | download p =>
    simp only [apply, ok_bind, ok_onReport] at h
    obtain ⟨_, w₁, hd, rfl⟩ := h
    have hdone := download_ok (u := u) ha hd
    exact hdone
  | upload p => exact apply_upload ha h
  | deleteLocal p => exact apply_deleteLocal ha h
  | deleteRemote p =>
    simp only [apply, ok_bind, ok_onServer, ok_onState, ok_onReport] at h
    obtain ⟨-, _, ⟨server, hs, rfl⟩, -, _, rfl, rfl⟩ := h
    exact remove_sides ha hs
  | removeRemoteDirectory p =>
    simp only [apply, ok_bind, ok_onServer, ok_onState, ok_onReport] at h
    obtain ⟨-, _, ⟨server, hs, rfl⟩, -, _, rfl, rfl⟩ := h
    exact remove_sides ha hs
  | forget p => exact apply_forget h
  | keepBoth p c => exact apply_keepBoth ha.1 ha.2 h
  | setAside p c => exact apply_setAside ha.1 ha.2 h

end Refinement

end Stashden.Sync
