import Stashden.Api.Administration
import Stashden.Api.Serves

/-!
# What requests can do to an account

`Serves` are the transactions of the handlers of files, versions, the trash, grants, uploads,
thumbnails and WebDAV. The other handlers write the accounts (`Administers`), or tables that hold no
node and no grant: sessions, app passwords, share links.

`Confined` adds the grants to `Within`: a request takes away no grant between others, and gives none of
a node that is not the caller's. `serves_confined` is about one transaction, whatever the tables are
that it finds, and so about requests in any interleaving; `put_serves`, `finish_serves`,
`davPut_serves`, `lock_serves` and `unlock_serves` take the handlers with several transactions apart.
`untouched` is about any run of these transactions and an administrator's, by any accounts but one.
-/

namespace Stashden.Api

open Lib Stashden.Core Tx

/-- One transaction that a handler of files, versions, the trash, grants, uploads, thumbnails or WebDAV
commits for a caller. -/
inductive Serves (app : AppState) (tagText : Etag → Str) (caller : User) : Db → Db → Prop
  | read {db db' : Db} {path : List NodeName} {place : Place}
      (hx : (Routes.read app caller path).Returns db place db') : Serves app tagText caller db db'
  | registerBlob {db db' : Db} {hash : BlobHash} {size : Nat}
      (hx : (registerBlob hash size).Returns db () db') : Serves app tagText caller db db'
  | place {db db' : Db} {precondition : Precondition} {path : List NodeName} {hash : BlobHash}
      {size : Nat} {node : Node}
      (hx : (Routes.place app tagText caller precondition path hash size).Returns db node db') :
      Serves app tagText caller db db'
  | rename {db db' : Db} {source destination : List NodeName} {node : Node}
      (hx : (Routes.rename app caller source destination).Returns db node db') :
      Serves app tagText caller db db'
  | delete {db db' : Db} {path : List NodeName}
      (hx : (Routes.delete app caller path).Returns db () db') : Serves app tagText caller db db'
  | createFolder {db db' : Db} {path : List NodeName} {node : Node}
      (hx : (Routes.createFolder app caller path).Returns db node db') :
      Serves app tagText caller db db'
  | restoreVersion {db db' : Db} {path : List NodeName} {id : Uuid} {node : Node}
      (hx : (Routes.restoreVersion app caller path id).Returns db node db') :
      Serves app tagText caller db db'
  | restore {db db' : Db} {id : Uuid} {node : Node}
      (hx : (Routes.restore caller id).Returns db node db') : Serves app tagText caller db db'
  | purge {db db' : Db} {id : Uuid}
      (hx : (Routes.purge caller id).Returns db () db') : Serves app tagText caller db db'
  | empty {db db' : Db} {purged : Nat}
      (hx : (Routes.empty caller).Returns db purged db') : Serves app tagText caller db db'
  | createGrant {db db' : Db} {path : List NodeName} {grantee : Str} {access : Access} {given : Given}
      (hx : (Routes.createGrant app caller path grantee access).Returns db given db') :
      Serves app tagText caller db db'
  | withdraw {db db' : Db} {id : Uuid}
      (hx : (withdraw caller id).Returns db () db') : Serves app tagText caller db db'
  | remember {db db' : Db} {source thumbnail : BlobHash} {edge : Nat}
      (hx : (remember source edge thumbnail).Returns db () db') : Serves app tagText caller db db'
  | beginUpload {db db' : Db} {headers : Headers} {path : List NodeName} {size : Nat}
      (hx : (Routes.beginUpload app tagText caller headers path size).Returns db () db') :
      Serves app tagText caller db db'
  | mkcol {db db' : Db} {path : List NodeName} {submitted : List Uuid} {bodyEmpty : Bool} {node : Node}
      (hx : (Dav.mkcol app caller path submitted bodyEmpty).Returns db node db') :
      Serves app tagText caller db db'
  | davPlace {db db' : Db} {path : List NodeName} {submitted : List Uuid} {hash : BlobHash}
      {size : Nat} {node : Node}
      (hx : (Dav.place app caller path submitted hash size).Returns db node db') :
      Serves app tagText caller db db'
  | davDelete {db db' : Db} {path : List NodeName} {submitted : List Uuid}
      (hx : (Dav.delete app caller path submitted).Returns db () db') : Serves app tagText caller db db'
  | transfer {db db' : Db} {moving overwrite : Bool} {source destination : List NodeName}
      {submitted : List Uuid} {node : Node}
      (hx : (Dav.transfer app caller moving source destination overwrite submitted).Returns db node
        db') : Serves app tagText caller db db'
  | takeOn {db db' : Db} {path : List NodeName} {submitted : List Uuid} {deep : Bool} {seconds : Nat}
      {lock : Lock} (hx : (Dav.takeOn app caller path submitted deep seconds).Returns db lock db') :
      Serves app tagText caller db db'
  | refresh {db db' : Db} {path : List NodeName} {submitted : List Uuid} {seconds : Nat} {lock : Lock}
      (hx : (Dav.refresh app caller path submitted seconds).Returns db lock db') :
      Serves app tagText caller db db'
  | located {db db' : Db} {path : List NodeName} {place : Place}
      (hx : (locateWritable caller path app.defaultQuotaBytes).Returns db place db') :
      Serves app tagText caller db db'
  | release {db db' : Db} {node : Node} {token : Uuid} {released : Bool}
      (hx : (releaseLock node token).Returns db released db') : Serves app tagText caller db db'

/-- A write of a caller kept to its own nodes, what it was lent, and its own grants. -/
structure Confined (caller : User) (s s' : Store) : Prop extends Within caller s s' where
  hands : ∀ {id row now}, s.nodes.find id = some row → s'.nodes.find id = some now →
    now.ownerId = row.ownerId
  given : ∀ g ∈ s.grants.rows, g.grantee ≠ caller.email →
    (∀ row, s.nodes.find g.nodeId = some row → row.ownerId ≠ caller.id) → g ∈ s'.grants.rows
  gives : ∀ g ∈ s'.grants.rows, g ∈ s.grants.rows ∨
    ∃ row, s'.nodes.find g.nodeId = some row ∧ row.ownerId = caller.id

variable {app : AppState} {tagText : Etag → Str} {caller : User} {db db' m : Db} {s s' : Store}
  {node row : Node} {path : List NodeName} {id ownerId k : Uuid} {u : Unit} {g : Grant}

/-! ## One transaction -/

/-- What a transaction of a request comes to. -/
structure Serving (caller : User) (db db' : Db) : Prop where
  steps : Steps db db'
  confined : Confined caller db.toStore db'.toStore
  free : ShelfFree db.toStore → ShelfFree db'.toStore

theorem Goes.confined (h : Goes caller db db') : Confined caller db.toStore db'.toStore :=
  { h.within with
    hands := fun hrow hnow => by
      obtain ⟨now, hnow', howner⟩ := h.stays.rows hrow
      rw [hnow] at hnow'
      exact Option.some.inj hnow' ▸ howner
    given := fun _ hg _ _ => h.stays.grants ▸ hg
    gives := fun _ hg => Or.inl (h.stays.grants ▸ hg) }

theorem confined_of_purges {dues : List (Uuid × Uuid)} (hs : Sane db.toStore)
    (h : Purges dues db db') (hdues : ∀ due ∈ dues, due.1 = caller.id) :
    Confined caller db.toStore db'.toStore := by
  have hothers := h.others hs.forest hdues
  refine { within_othersStay hothers with
    hands := fun hrow hnow => ?_
    given := fun g hg _ hforeign => (h.grants hs.forest g).mpr ⟨hg, ?_⟩
    gives := fun g hg => Or.inl ((h.grants hs.forest g).mp hg).1 }
  · have hsame := ((h.find hs.forest _ _).mp hnow).1
    rw [hrow] at hsame
    exact congrArg Node.ownerId (Option.some.inj hsame).symm
  · obtain ⟨row, hrow⟩ := Option.isSome_iff_exists.mp (db.sound .grantsForeign g hg).1
    rw [(hothers (hforeign row hrow)).mp hrow]
    rfl

theorem restore_goes (hs : Sane db.toStore) (h : (restore caller.id id).Returns db node db') :
    Goes caller db db' := by
  obtain ⟨hsteady, -, hres, -⟩ := restore_nodes hs.forest h
  refine ⟨.single (.restore h), ⟨hsteady.grants, fun hrow => ?_⟩,
    within_othersStay (restore_others hs.forest h), fun hfree => hfree.of_placed
      (fun _ hg => hsteady.grants ▸ hg) fun hrow' => ?_⟩
  · obtain ⟨row', hrow', hsame⟩ := hres.retrashed.find hrow
    exact ⟨row', hrow', (untrashed_eq hsame).1⟩
  · obtain ⟨row, hrow, hsame⟩ := hres.retrashed.symm.find hrow'
    obtain ⟨-, hp, hname, -⟩ := untrashed_eq hsame
    exact ⟨row, hrow, hp.symm, hname.symm⟩

theorem createGrant_confined {grantee : Str} {access : Access} {given : Given} (hs : Sane db.toStore)
    (h : (Routes.createGrant app caller path grantee access).Returns db given db') :
    Serving caller db db' := by
  obtain ⟨_, m, hwriter, h⟩ := bind_returns.mp h
  obtain rfl := writer_returns hwriter
  obtain ⟨hpath, h⟩ := of_guard h
  obtain ⟨found, m, hfound, h⟩ := bind_returns.mp h
  have hgoes : Goes caller db m := goes_locate hfound
  cases found with
  | own node =>
    have hgive : (give caller node grantee access).Returns m given db' := h
    have howned : m.Owned caller.id node :=
      locate_admitted (hs.steps hgoes.steps).forest hfound
    have hlive : m.liveNode node.id = some node :=
      liveNode_eq_some.mpr ⟨Table.mem_iff_find.mp howned.row, howned.live⟩
    obtain ⟨-, -, grant, grants, hnode, -, hins, hs'⟩ :=
      give_returns (Table.mem_iff_find.mp howned.row) hgive
    have hnodes : db'.nodes = m.nodes := by rw [hs']
    have hgrants : ∀ {g}, g ∈ db'.grants.rows ↔ g = grant ∨ g ∈ m.grants.rows := by
      intro g
      rw [hs']
      exact mem_insert_grants hins
    refine ⟨hgoes.steps.tail (.give hlive hgive), ⟨⟨?_, ?_⟩, ?_, fun g hg _ _ => ?_, fun g hg => ?_⟩,
      fun hfree => ?_⟩
    · rw [hnodes]
      exact hgoes.within.others
    · rw [hnodes]
      exact hgoes.within.added
    · rw [hnodes]
      exact hgoes.confined.hands
    · exact hgrants.mpr (Or.inr (hgoes.stays.grants ▸ hg))
    · rcases hgrants.mp hg with rfl | hg
      · refine Or.inr ⟨node, ?_, howned.owner⟩
        rw [hnodes, hnode]
        exact Table.mem_iff_find.mp howned.row
      · exact Or.inl (hgoes.stays.grants ▸ hg)
    · have hkept := hgoes.free hfree
      refine ⟨fun hrow hp htop => hkept.named (hnodes ▸ hrow) hp (hnodes ▸ htop), fun g hg row hrow => ?_⟩
      rw [hnodes] at hrow
      rcases hgrants.mp hg with rfl | hg
      · rw [hnode, Table.mem_iff_find.mp howned.row] at hrow
        cases hrow
        exact movable_child hpath hfound (pure_returns.mpr ⟨rfl, rfl⟩)
      · exact hkept.shared g hg hrow
  | sharedWithMe => exact absurd h fail_returns
  | shared node way atMount => exact absurd h fail_returns

theorem withdraw_confined (h : (withdraw caller id).Returns db u db') :
    Serving caller db db' := by
  have hs := withdraw_returns h
  have hgrants : ∀ {g}, g ∈ db'.grants.rows ↔
      g ∈ db.grants.rows ∧ db.withdrawable caller id g = false := by
    intro g
    rw [hs]
    exact Table.mem_delete
  have hnodes : db'.nodes = db.nodes := by rw [hs]
  refine ⟨.single (.withdraw h), ⟨⟨?_, ?_⟩, ?_, fun g hg hother hforeign => ?_,
    fun g hg => Or.inl (hgrants.mp hg).1⟩, fun hfree => hfree.of_placed
      (fun g hg => (hgrants.mp hg).1) fun hrow => ⟨_, hnodes ▸ hrow, rfl, rfl⟩⟩
  · rw [hnodes]
    exact fun row hmem _ => .kept (Table.mem_iff_find.mp hmem)
  · rw [hnodes]
    intro k row hno hrow
    rw [hno] at hrow
    cases hrow
  · rw [hnodes]
    intro k row now hrow hnow
    rw [hrow] at hnow
    exact congrArg Node.ownerId (Option.some.inj hnow).symm
  · refine hgrants.mpr ⟨hg, ?_⟩
    obtain ⟨row, hrow⟩ := Option.isSome_iff_exists.mp (db.sound .grantsForeign g hg).1
    unfold Store.withdrawable
    simp [hother, hrow, hforeign row hrow]

/-! ## Handlers with several transactions -/

/-- Whatever `x` finds, `R` holds between that and what it leaves. -/
def Pool.Runs {α : Type} (R : Db → Db → Prop) (x : Pool α) : Prop := ∀ db, R db (x db).2

section Runs

variable {α β : Type} {R : Db → Db → Prop} [IsPreorder Db R] {x : Tx α}

theorem runs_commit (h : ∀ {db a db'}, x.Returns db a db' → R db db') :
    Pool.Runs R (Pool.commit x) := by
  intro db
  unfold Pool.commit
  split
  · rename_i a db' hx
    exact h hx
  · exact refl db

theorem runs_rolledBack : Pool.Runs R (Pool.rolledBack x) := by
  intro db
  unfold Pool.rolledBack
  split
  · exact refl db
  · exact refl db

theorem runs_bind {y : Pool α} {f : α → Pool β} (hy : Pool.Runs R y)
    (hf : ∀ a, Pool.Runs R (f a)) : Pool.Runs R (y >>= f) := by
  intro db
  have hfirst := hy db
  show R db (ExceptT.bindCont f (y db).1 (y db).2).2
  cases hres : (y db).1 with
  | error e => exact hfirst
  | ok a => exact IsTrans.trans _ _ _ hfirst (hf a _)

end Runs

/-- Transactions of one caller, one after the other. -/
abbrev ServesAll (app : AppState) (tagText : Etag → Str) (caller : User) : Db → Db → Prop :=
  Relation.ReflTransGen (Serves app tagText caller)

section Several

variable {headers : Headers} {hash : BlobHash} {size : Nat} {submitted : List Uuid}
  {deep : Bool} {seconds : Nat} {token : Uuid}

/-- Bytes are asked about, then registered, then placed. -/
theorem serves_stored {ask : Tx Unit} {x : Tx Node}
    (hx : ∀ {db node db'}, x.Returns db node db' → Serves app tagText caller db db') :
    Pool.Runs (ServesAll app tagText caller) (do
      Pool.rolledBack ask
      Pool.commit (registerBlob hash size)
      Pool.commit x) :=
  runs_bind runs_rolledBack fun _ =>
    runs_bind (runs_commit fun hregister => .single (.registerBlob hregister)) fun _ =>
      runs_commit fun hplaced => .single (hx hplaced)

theorem put_serves : Pool.Runs (ServesAll app tagText caller)
    (Routes.put app tagText caller headers path hash size) :=
  serves_stored fun hx => .place hx

theorem finish_serves : Pool.Runs (ServesAll app tagText caller)
    (Routes.finish app tagText caller headers path hash size) :=
  serves_stored fun hx => .place hx

theorem davPut_serves : Pool.Runs (ServesAll app tagText caller)
    (Dav.put app caller path submitted hash size) :=
  serves_stored fun hx => .davPlace hx

theorem lock_serves : Pool.Runs (ServesAll app tagText caller)
    (Dav.lock app caller path submitted deep seconds) := by
  intro db
  have htake : Pool.Runs (ServesAll app tagText caller)
      (Pool.commit (Dav.takeOn app caller path submitted deep seconds)) :=
    runs_commit fun hx => .single (.takeOn hx)
  unfold Dav.lock
  split_ifs
  · exact runs_bind (runs_commit fun hx => .single (.registerBlob hx)) (fun _ => htake) db
  · exact htake db

theorem unlock_serves : Pool.Runs (ServesAll app tagText caller) (Dav.unlock app caller path token) := by
  refine runs_bind (runs_commit fun {db node m} hx => ?_) fun node =>
    runs_commit fun hx => .single (.release hx)
  obtain ⟨_, m₁, hwriter, hx⟩ := bind_returns.mp hx
  obtain rfl := writer_returns hwriter
  obtain ⟨found, m₁, hfound, hx⟩ := bind_returns.mp hx
  obtain ⟨rfl, -⟩ := intoNode_returns hx
  exact .single (.located hfound)

end Several

theorem serves_goes (h : Reached db) (hx : Serves app tagText caller db db') :
    Serving caller db db' := by
  have hs := h.sane
  have hgoes : Goes caller db db' → Serving caller db db' := fun hg => ⟨hg.steps, hg.confined, hg.free⟩
  have hpurges : ∀ {dues}, Step db db' → Purges dues db db' → (∀ due ∈ dues, due.1 = caller.id) →
      Serving caller db db' := fun hstep hx hdues =>
    ⟨.single hstep, confined_of_purges hs hx hdues, fun hfree => hfree.purges hs.forest hx⟩
  cases hx with
  | read hx => exact hgoes (goes_locate hx)
  | registerBlob hx =>
    have hbeside := beside_registerBlob hx
    exact hgoes (.aside (.registerBlob hx) hbeside.grants hbeside.nodes)
  | place hx => exact hgoes (place_goes hs hx)
  | rename hx => exact hgoes (rename_goes hs hx)
  | delete hx => exact hgoes (delete_goes hs hx)
  | createFolder hx => exact hgoes (createFolder_goes hs hx)
  | restoreVersion hx => exact hgoes (restoreVersion_goes hs hx)
  | restore hx =>
    obtain ⟨_, m, hwriter, hx⟩ := bind_returns.mp hx
    obtain rfl := writer_returns hwriter
    exact hgoes (restore_goes hs hx)
  | purge hx =>
    obtain ⟨_, m, hwriter, hx⟩ := bind_returns.mp hx
    obtain rfl := writer_returns hwriter
    refine hpurges (.purge hx) (.purge hx (.nil _)) fun due hdue => ?_
    rw [List.mem_singleton.mp hdue]
  | empty hx =>
    obtain ⟨_, m, hwriter, hx⟩ := bind_returns.mp hx
    obtain rfl := writer_returns hwriter
    refine hpurges (.emptyTrash hx) (emptyTrash_purges hx) fun due hdue => ?_
    obtain ⟨n, -, rfl⟩ := List.mem_map.mp hdue
    rfl
  | createGrant hx => exact createGrant_confined hs hx
  | withdraw hx => exact withdraw_confined hx
  | remember hx =>
    have hsame := untouched_remember hx
    exact hgoes (.aside (.remember hx) hsame.grants hsame.nodes)
  | beginUpload hx => exact hgoes (beginUpload_goes hs hx)
  | mkcol hx => exact hgoes (mkcol_goes hs hx)
  | davPlace hx => exact hgoes (davPlace_goes hs hx)
  | davDelete hx => exact hgoes (davDelete_goes hs hx)
  | transfer hx => exact hgoes (transfer_goes hs hx)
  | takeOn hx => exact hgoes (takeOn_goes hs hx)
  | refresh hx => exact hgoes (davRefresh_goes hs hx)
  | located hx => exact hgoes (goes_locate (locateWritable_returns hx).1)
  | release hx => exact hgoes ((onlyLocks_release hx).goes (.releaseLock hx))

/-- **What a request can do.** After every run, a transaction of a request is steps of the service, and
keeps to the caller's nodes, to what stands at or below a live node that a grant lets it write, and to
the grants of its own nodes and those of its own address. -/
theorem serves_confined (h : Reached db) (hx : Serves app tagText caller db db') :
    Steps db db' ∧ Reached db' ∧ Confined caller db.toStore db'.toStore := by
  obtain ⟨hsteps, hconfined, -⟩ := serves_goes h hx
  exact ⟨hsteps, h.steps hsteps, hconfined⟩

/-- The account that was given a folder writes a file in it. -/
theorem serves_confined_lent : ∃ db', Steps lent db' ∧ Reached db' ∧
    Confined bensAccount lent.toStore db'.toStore ∧
    ∃ node ∈ db'.nodes.rows, node ∉ lent.nodes.rows ∧ node.ownerId = adasUser.id := by
  have hcommits : commits (Routes.place keepsTwo (fun _ => []) bensAccount .absent
      [shelfName, docsName, noteName] firstBytes 4) lent = true := by decide +kernel
  obtain ⟨node, hx⟩ := returns_ran hcommits
  obtain ⟨hsteps, hreached, hconfined⟩ := serves_confined reached_lent (.place hx)
  exact ⟨_, hsteps, hreached, hconfined, by decide +kernel⟩

/-! ## Runs -/

/-- A request of an account other than one, where it is not an administrator's that removes that one
or gives it the files of another; or time going on. -/
inductive ServesOther (app : AppState) (tagText : Etag → Str) (ownerId : Uuid) : Db → Db → Prop
  | request {db db' : Db} {caller : User} (hother : caller.id ≠ ownerId)
      (hx : Serves app tagText caller db db') : ServesOther app tagText ownerId db db'
  | administers {db db' : Db} (hx : Administers ownerId db db') : ServesOther app tagText ownerId db db'
  | tick {db db' : Db} {now : Nat} (hnow : db.now ≤ now)
      (hs : db'.toStore = { db.toStore with now := now }) : ServesOther app tagText ownerId db db'

/-- No grant lets anybody write what is an account's. -/
def Withheld (ownerId : Uuid) (s : Store) : Prop :=
  ∀ g ∈ s.grants.rows, g.access.mayWrite = true → ∀ row, s.nodes.find g.nodeId = some row →
    row.ownerId ≠ ownerId

theorem Withheld.not_lent (h : Withheld ownerId s) (hw : WellFormed s.nodes)
    (hrow : s.nodes.find k = some row) (howner : row.ownerId = ownerId) : ¬ s.Lent caller k := by
  rintro ⟨g, hg, hbelow⟩
  obtain ⟨top, htop, -⟩ := hg.top
  exact h g hg.grant hg.write top htop
    ((hw.owner_above hrow hbelow.atOrBelow htop).symm.trans howner)

/-- What another account's request leaves of an account that lets nobody write. -/
theorem Withheld.spares (h : Withheld ownerId db.toStore) (hs : Sane db.toStore)
    (hs' : Sane db'.toStore) (hother : caller.id ≠ ownerId)
    (hconfined : Confined caller db.toStore db'.toStore) :
    Spares ownerId db.toStore db'.toStore := by
  have hto : ∀ {k row}, row.ownerId = ownerId → db.nodes.find k = some row →
      db'.nodes.find k = some row := by
    intro k row howner hrow
    have hkey : row.id = k := Table.find_key hrow
    have hno : ¬ db.Lent caller k := h.not_lent hs.forest hrow howner
    cases hconfined.others row (Table.find_mem hrow) (howner ▸ hother.symm) with
    | kept hsame => exact hkey ▸ hsame
    | content hlent => exact absurd (hkey ▸ hlent) hno
    | moved hbeneath => exact absurd (hkey ▸ hbeneath.lent) hno
  have hback : ∀ {k row}, row.ownerId = ownerId → db'.nodes.find k = some row →
      db.nodes.find k = some row := by
    intro k row howner hrow
    cases hold : db.nodes.find k with
    | some old =>
      rw [hto ((hconfined.hands hold hrow).symm.trans howner) hold] at hrow
      exact hrow
    | none =>
      rcases hconfined.added hold hrow with hown | ⟨g, hg, hup⟩
      · exact absurd (hown.symm.trans howner) hother
      · obtain ⟨top, htop, -, hforeign⟩ := hg.top
        have hkey : top.id = g.nodeId := Table.find_key htop
        obtain ⟨now, hnow⟩ : ∃ now, db'.nodes.find g.nodeId = some now := by
          cases hconfined.others top (Table.find_mem htop) hforeign with
          | kept hsame => exact ⟨_, hkey ▸ hsame⟩
          | content hlent body etag hsame => exact ⟨_, hkey ▸ hsame⟩
          | moved hbeneath now hnow => exact ⟨now, hkey ▸ hnow⟩
        refine absurd ?_ (h g hg.grant hg.write top htop)
        rw [← hconfined.hands htop hnow, ← hs'.forest.owner_above hrow hup hnow]
        exact howner
  refine ⟨fun howner => ⟨hto howner, hback howner⟩, fun g hg hwrite row hrow howner => ?_⟩
  rcases hconfined.gives g hg with hold | ⟨now, hnow, hgave⟩
  · exact ⟨g, hold, rfl, hwrite⟩
  · rw [hrow] at hnow
    cases hnow
    exact absurd (hgave.symm.trans howner) hother

theorem Spares.withheld (h : Spares ownerId s s') (hwithheld : Withheld ownerId s) :
    Withheld ownerId s' := by
  intro g' hg' hwrite row hrow howner
  obtain ⟨g, hg, hnode, hwrite'⟩ := h.lends g' hg' hwrite row hrow howner
  exact hwithheld g hg hwrite' row (hnode ▸ (h.rows howner).mpr hrow) howner

/-- One of them keeps to the service, and spares an account that lets nobody write. -/
theorem ServesOther.spares (hx : ServesOther app tagText ownerId db db') (h : Reached db)
    (hwithheld : Withheld ownerId db.toStore) :
    Reached db' ∧ Spares ownerId db.toStore db'.toStore := by
  cases hx with
  | request hother hx =>
    obtain ⟨hsteps, hconfined, -⟩ := serves_goes h hx
    have hreached := h.steps hsteps
    exact ⟨hreached, hwithheld.spares h.sane hreached.sane hother hconfined⟩
  | administers hx => exact ⟨h.step hx.step, administers_spares h.sane hx⟩
  | tick hnow hs =>
    refine ⟨h.step (.tick hnow hs), ?_⟩
    have hsame : Untouched db.toStore db'.toStore := by
      rw [hs]
      exact ⟨rfl, rfl⟩
    exact hsame.spares

/-- **What nobody else can touch.** However the requests of other accounts are interleaved, an account
that lets nobody write keeps every row as it is, the trash included, and gets no other, unless an
administrator removes it or gives it another's files; and nobody comes to be let. -/
theorem untouched (h : Reached db) (hwithheld : Withheld ownerId db.toStore)
    (hrun : Relation.ReflTransGen (ServesOther app tagText ownerId) db db') :
    Withheld ownerId db'.toStore ∧ ∀ k row, row.ownerId = ownerId →
      (db.nodes.find k = some row ↔ db'.nodes.find k = some row) := by
  have hrun : Reached db' ∧ Withheld ownerId db'.toStore ∧ ∀ k row, row.ownerId = ownerId →
      (db.nodes.find k = some row ↔ db'.nodes.find k = some row) := by
    induction hrun with
    | refl => exact ⟨h, hwithheld, fun _ _ _ => Iff.rfl⟩
    | tail _ hstep ih =>
      obtain ⟨hreached, hkept, hsame⟩ := ih
      obtain ⟨hreached', hspares⟩ := hstep.spares hreached hkept
      exact ⟨hreached', hspares.withheld hkept, fun k row howner =>
        (hsame k row howner).trans (hspares.rows howner)⟩
  exact hrun.2

/-- The other way round: who was given a folder keeps its own to itself, when the one who gave it has
written and left. -/
theorem untouched_lent : ∃ db', db' ≠ lent ∧ ∀ k row, row.ownerId = bensAccount.id →
    (lent.nodes.find k = some row ↔ db'.nodes.find k = some row) := by
  have hcommits : commits (Routes.place keepsTwo (fun _ => []) adasUser .unconditional
      [otherName] firstBytes 4) lent = true := by decide +kernel
  obtain ⟨node, hx⟩ := returns_ran hcommits
  have hleaves : commits (removeAccount 1 none 100) (ran (Routes.place keepsTwo (fun _ => []) adasUser
      .unconditional [otherName] firstBytes 4) lent) = true := by decide +kernel
  obtain ⟨_, hleft⟩ := returns_ran hleaves
  have hwithheld : Withheld bensAccount.id lent.toStore := by
    unfold Withheld
    decide +kernel
  refine ⟨_, fun hsame => ?_, (untouched reached_lent hwithheld
    (.tail (.single (.request (by decide) (.place hx)))
      (.administers (.removeAccount (by decide) (by decide) (by decide) hleft)))).2⟩
  have hrows := congrArg (fun d : Db => d.users.rows.length) hsame
  revert hrows
  decide +kernel

end Stashden.Api
