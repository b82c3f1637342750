import Stashden.Sync.Pass

/-!
# What a pass removes from the server

`Transport::remove` takes a whole subtree, while the plan is made from the filtered listing.
`mem_trashed_iff` says what that comes to: a pass sends to the trash exactly what the server had, at
its start, at or inside the subject of a planned removal. Nothing is put there meanwhile, because a
removal's subject is gone from the folder (`untouched_of_transfers`), and the plan runs its removals
after everything that creates (`plan_eq_transfers_append`).

Hence `removals_justified_iff`: what is removed was recorded as it stood exactly when, for every
directory removed, the directory is recorded as one and what is hidden or does not fit inside it is
recorded as it stands. `hidden_file_removed` is a folder in which it is not.
-/

namespace Stashden.Sync

open Lib Stashden.Core RelPath Pass

/-- A list whose entries with a property all stand before those without is their concatenation. -/
theorem filter_append_filter_not {α : Type} {f : α → Bool} {l : List α}
    (h : l.Pairwise fun a b => f b = true → f a = true) :
    l = l.filter f ++ l.filter fun a => !f a := by
  induction l with
  | nil => rfl
  | cons a l ih =>
    obtain ⟨ha, hl⟩ := List.pairwise_cons.mp h
    cases hf : f a with
    | true =>
      simp only [List.filter_cons, hf, if_true, Bool.not_true, Bool.false_eq_true, if_false,
        List.cons_append]
      rw [← ih hl]
    | false =>
      have hnone : l.filter f = [] := by
        refine List.filter_eq_nil_iff.mpr fun b hb hfb => ?_
        rw [ha b hb hfb] at hf
        exact absurd hf (by simp)
      have hall : l.filter (fun a => !f a) = l := by
        refine List.filter_eq_self.mpr fun b hb => ?_
        rw [Bool.not_eq_true', ← Bool.not_eq_true]
        exact fun hfb => by rw [ha b hb hfb] at hf; exact absurd hf (by simp)
      simp only [List.filter_cons, hf, Bool.not_false, if_true, Bool.false_eq_true, if_false, hnone,
        hall, List.nil_append]

/-- The actions that run before every deletion and removal. -/
def Action.early (a : Action) : Bool := decide (a.slot.rank ≤ 1)

theorem Action.not_early_of_removes {a : Action} (h : a.removes = true) : a.early = false := by
  cases a with
  | deleteRemote => rfl
  | removeRemoteDirectory => rfl
  | _ => exact absurd h (by simp [Action.removes])

theorem Action.early_of_makesRemote {a : Action} (h : a.makesRemote = true) : a.early = true := by
  cases a with
  | createRemoteDirectory => rfl
  | upload => rfl
  | keepBoth => rfl
  | _ => exact absurd h (by simp [Action.makesRemote])

section Server

variable {before server s : Server} {p q : RelPath} {zone root : RelPath → Prop}

/-! ## The server during a pass -/

/-- Nothing was sent to the trash, and the zone is as it was. -/
structure Untouched (zone : RelPath → Prop) (before s : Server) : Prop where
  trash : s.trash = before.trash
  tree : ∀ q, zone q → s.tree.get q = before.tree.get q

/-- What stands in the zone was there, what is gone from it is in the trash, and a root stands as it
did or is gone with everything inside. -/
structure Emptying (zone root : RelPath → Prop) (before s : Server) : Prop where
  gained : ∃ more, s.trash = before.trash ++ more ∧
    ∀ x ∈ more, zone x.1 ∧ before.tree.get x.1 = some x.2
  was : ∀ q e, zone q → s.tree.get q = some e → before.tree.get q = some e
  kept : ∀ q e, zone q → before.tree.get q = some e →
    s.tree.get q = some e ∨ (q, e) ∈ s.trash.drop before.trash.length
  whole : ∀ r, root r → s.tree.get r = before.tree.get r ∨
    ∀ q, atOrInside r q = true → s.tree.get q = none

theorem Untouched.emptying (h : Untouched zone before s) (hroot : ∀ r, root r → zone r) :
    Emptying zone root before s where
  gained := ⟨[], by rw [h.trash, List.append_nil], fun _ hx => absurd hx List.not_mem_nil⟩
  was := fun q e hq he => by rwa [← h.tree q hq]
  kept := fun q e hq he => Or.inl ((h.tree q hq).trans he)
  whole := fun r hr => Or.inl (h.tree r (hroot r hr))

theorem atOrInside_trans {a b c : RelPath} (hab : atOrInside b a = true)
    (hbc : atOrInside c b = true) : atOrInside c a = true := by
  rw [atOrInside_iff] at *
  rcases hab with rfl | hab
  · exact hbc
  · rcases hbc with rfl | hbc
    · exact Or.inr hab
    · exact Or.inr (isInside_trans hab hbc)

/-- **A removal of a root** keeps the account of the zone. -/
theorem Emptying.of_remove (h : Emptying zone root before server) (hzone : ∀ q,
    atOrInside p q = true → zone q) (hs : remove p server = .ok s) :
    Emptying zone root before s := by
  obtain ⟨-, hget, htrash⟩ := remove_ok hs
  obtain ⟨more, hmore, hlisted⟩ := h.gained
  have hcut : ∀ q e, s.tree.get q = some e → server.tree.get q = some e := by
    intro q e he
    rw [hget] at he
    unfold cut at he
    split_ifs at he
    exact he
  have hdrop : s.trash.drop before.trash.length =
      server.trash.drop before.trash.length ++
        server.tree.entries.filter fun e => atOrInside p e.1 := by
    rw [htrash, hmore, List.append_assoc, List.drop_left, List.drop_left]
  refine ⟨⟨more ++ _, by rw [htrash, hmore, List.append_assoc], fun x hx => ?_⟩,
    fun q e hq he => h.was q e hq (hcut q e he), fun q e hq he => ?_, fun r hr => ?_⟩
  · rcases List.mem_append.mp hx with hx | hx
    · exact hlisted x hx
    · obtain ⟨hmem, hin⟩ := List.mem_filter.mp hx
      have hz := hzone x.1 hin
      exact ⟨hz, h.was x.1 x.2 hz (OrdMap.get_eq_some_iff.mpr hmem)⟩
  · rw [hdrop]
    rcases h.kept q e hq he with hstill | hgone
    · cases hin : atOrInside p q with
      | true =>
        refine Or.inr (List.mem_append_right _ (List.mem_filter.mpr ⟨?_, hin⟩))
        exact OrdMap.get_eq_some_iff.mp hstill
      | false =>
        refine Or.inl ?_
        rw [hget, cut, hin]
        exact hstill
    · exact Or.inr (List.mem_append_left _ hgone)
  · rcases h.whole r hr with hstands | hgone
    · cases hin : atOrInside p r with
      | true =>
        refine Or.inr fun q hq => ?_
        rw [hget, cut, if_pos (atOrInside_trans hq hin)]
      | false =>
        refine Or.inl ?_
        rw [hget, cut, hin]
        exact hstands
    · refine Or.inr fun q hq => ?_
      rw [hget]
      unfold cut
      split_ifs
      · rfl
      · exact hgone q hq

/-- After a root's removal, succeeded or not, nothing is left at it nor inside it. -/
theorem Emptying.gone_after (h : Emptying zone root before server) (hp : root p)
    (hlisted : before.tree.get p ≠ none) :
    (∀ s, remove p server = .ok s → ∀ q, atOrInside p q = true → s.tree.get q = none) ∧
      ∀ e, remove p server = .error e → ∀ q, atOrInside p q = true → server.tree.get q = none := by
  refine ⟨fun s hs q hq => ?_, fun e he q hq => ?_⟩
  · rw [(remove_ok hs).2.1, cut, if_pos hq]
  · have hnone : server.tree.get p = none := by
      unfold remove at he
      split at he
      · assumption
      · exact absurd he (by simp)
    rcases h.whole p hp with hstands | hgone
    · exact absurd (hstands.symm.trans hnone) hlisted
    · exact hgone q hq

end Server

section Removals

variable {u : Unicode} {pass : Pass} {w : World} {q : RelPath}

/-- What a pass sends to the trash. -/
def Pass.trashed (u : Unicode) (pass : Pass) (w : World) : List (RelPath × Entry) :=
  (syncOnce u pass w).server.trash.drop w.server.trash.length

/-- A path a removal of the plan is about. -/
def Pass.Uproots (u : Unicode) (pass : Pass) (w : World) (p : RelPath) : Prop :=
  ∃ a ∈ (pass.plan u w).actions, a.removes = true ∧ a.subject = p

/-- What a removal of the plan takes. -/
def Pass.Takes (u : Unicode) (pass : Pass) (w : World) (q : RelPath) : Prop :=
  ∃ p, pass.Uproots u w p ∧ atOrInside p q = true

/-- A removal's subject is gone from the folder, and listed. -/
theorem Pass.Uproots.spec {p : RelPath} (h : pass.Uproots u w p) :
    (pass.localSide u w).get p = none ∧ ∃ e, (pass.remote u w).get p = some e := by
  obtain ⟨a, ha, hrem, rfl⟩ := h
  rcases planned ha with hw | ⟨_, _, e, -⟩
  · cases a with
    | deleteRemote p =>
      obtain ⟨t, n, hr, hl, -⟩ := hw
      exact ⟨hl, _, hr⟩
    | removeRemoteDirectory p => exact ⟨hw.1, _, hw.2.1⟩
    | _ => exact absurd hrem (by simp [Action.removes])
  · rw [e] at hrem
    exact absurd hrem (by simp [Action.removes])

/-- What a removal takes is gone from the folder. -/
theorem Pass.Takes.gone (hL : pass.scan.snapshot.TreeShaped) (h : pass.Takes u w q) :
    (pass.localSide u w).get q = none := by
  obtain ⟨p, hp, hq⟩ := h
  obtain ⟨hl, -⟩ := hp.spec
  rcases atOrInside_iff.mp hq with rfl | hin
  · exact hl
  · exact (localSide_treeShaped hL).none_inside (by simp [hl]) hin

/-- What is made on the server is not taken, nor is anything above it. -/
theorem Pass.Takes.apart (hL : pass.scan.snapshot.TreeShaped) (h : pass.Takes u w q) {a : Action}
    (ha : a ∈ (pass.plan u w).actions) (hm : a.makesRemote = true) :
    q ≠ a.subject ∧ a.subject.isInside q = false := by
  obtain ⟨e, he⟩ := (planned ha).scanned hm
  have hgone := h.gone hL
  refine ⟨?_, ?_⟩
  · rintro rfl
    rw [hgone] at he
    exact absurd he (by simp)
  · rw [← Bool.not_eq_true]
    intro hin
    rw [(localSide_treeShaped hL).above he hin] at hgone
    exact absurd hgone (by simp)

/-- A conflict's copy does not land where something is taken, but for a listed name, where the
server refuses it. -/
theorem Pass.Takes.copy_apart (hL : pass.scan.snapshot.TreeShaped) (h : pass.Takes u w q)
    {x c : RelPath} (ha : .keepBoth x c ∈ (pass.plan u w).actions) :
    (q = c → w.server.tree.get c ≠ none) ∧ c.isInside q = false := by
  obtain ⟨hne, hnot⟩ := h.apart hL ha rfl
  have hpar : c.parent = x.parent := (planned ha).copy_beside rfl
  refine ⟨?_, (isInside_congr hpar).trans hnot⟩
  rintro rfl
  obtain ⟨p, hp, hq⟩ := h
  rcases atOrInside_iff.mp hq with rfl | hin
  · obtain ⟨-, e, he⟩ := hp.spec
    rw [(remote_eq_some he).1]
    simp
  · -- Inside the subject stands the conflict's own path too, which the folder has.
    have htaken : pass.Takes u w x :=
      ⟨p, hp, atOrInside_iff.mpr (Or.inr ((isInside_congr hpar).symm.trans hin))⟩
    exact absurd rfl (htaken.apart hL ha rfl).1

/-- **Before its removals a pass leaves alone what they take.** -/
theorem untouched_of_early (hL : pass.scan.snapshot.TreeShaped) {acts : List Action} {w₁ : World}
    (hsub : ∀ a ∈ acts, a ∈ (pass.plan u w).actions ∧ a.early = true)
    (h : Untouched (pass.Takes u w) w.server w₁.server) :
    Untouched (pass.Takes u w) w.server
      (runActions u pass (pass.remote u w) acts w₁).server := by
  refine runActions_invariant (fun server p tag size expect s hor hput hJ => ?_)
    (fun server p s ha hmake hJ => ?_) (fun server a s ha hrem _ _ => ?_) h
  · obtain ⟨hcan, hget, htrash⟩ := putFile_ok hput
    refine ⟨htrash.trans hJ.trash, fun q hq => ?_⟩
    rw [hget, ← hJ.tree q hq]
    -- The file lands beside what is taken, and makes no directory there.
    have hapart : q ≠ p ∧ (server.tree.get p = none → p.isInside q = false) := by
      rcases hor with ⟨ha, -⟩ | ⟨x, ha, he⟩
      · obtain ⟨hne, hnot⟩ := hq.apart hL (hsub _ ha).1 rfl
        exact ⟨hne, fun _ => hnot⟩
      · obtain ⟨hlisted, hnot⟩ := hq.copy_apart hL (hsub _ ha).1
        refine ⟨fun e => ?_, fun _ => hnot⟩
        subst e
        rcases hcan with ⟨_, _, he', -⟩ | ⟨-, hnone, -⟩
        · rw [he] at he'
          exact absurd he' (by simp)
        · exact hlisted rfl ((hJ.tree q hq).symm.trans hnone)
    rw [put_of_ne hapart.1, if_neg]
    exact fun hin => by rw [hapart.2 hin.1] at hin; exact absurd hin.2 (by simp)
  · obtain ⟨-, -, hget, htrash⟩ := createDirectory_ok hmake
    refine ⟨htrash.trans hJ.trash, fun q hq => ?_⟩
    obtain ⟨hne, hno⟩ : q ≠ p ∧ p.isInside q = false := hq.apart hL (hsub _ ha).1 rfl
    rw [hget, Function.update_of_ne hne, ← hJ.tree q hq, dirsAbove, hno]
    rfl
  · have hearly := (hsub a ha).2
    rw [Action.not_early_of_removes hrem] at hearly
    exact absurd hearly (by simp)

/-- After them it only removes: any property of the server that removals of the plan keep. -/
theorem late_invariant {K : Server → Prop} (acts : List Action) {w₁ : World}
    (hsub : ∀ a ∈ acts, a ∈ (pass.plan u w).actions ∧ a.early = false)
    (hremove : ∀ server p s, pass.Uproots u w p → remove p server = .ok s → K server → K s)
    (h : K w₁.server) : K (runActions u pass (pass.remote u w) acts w₁).server := by
  have hno : ∀ a : Action, a ∈ acts → a.makesRemote = true → False := by
    intro a ha hm
    have hearly := (hsub a ha).2
    rw [Action.early_of_makesRemote hm] at hearly
    exact absurd hearly (by simp)
  refine runActions_invariant (fun server p tag size expect s hor _ _ => ?_)
    (fun server p s ha _ _ => (hno _ ha rfl).elim)
    (fun server a s ha hrem hs hK => hremove server a.subject s ⟨a, (hsub a ha).1, hrem, rfl⟩ hs hK) h
  rcases hor with ⟨ha, -⟩ | ⟨x, ha, -⟩
  · exact (hno _ ha rfl).elim
  · exact (hno _ ha rfl).elim

/-- A turn of the loop that removes. -/
theorem server_runAction_removes {remote : Snapshot} {a : Action} (h : a.removes = true) :
    (∃ s, remove a.subject w.server = .ok s ∧ (runAction u pass remote a w).server = s) ∨
      ∃ e, remove a.subject w.server = .error e ∧
        (runAction u pass remote a w).server = w.server := by
  have hcall : ∀ p, (∀ k : Unit → EngineM Unit, (∀ x w, (World.after (k x w)).server = w.server) →
      (∃ s, remove p w.server = .ok s ∧
        (World.after ((EngineM.onServer (remove p) >>= k) w)).server = s) ∨
      ∃ e, remove p w.server = .error e ∧
        (World.after ((EngineM.onServer (remove p) >>= k) w)).server = w.server) := by
    intro p k hk
    show (∃ s, _ ∧ (World.after (EStateM.bind _ k w)).server = s) ∨
      ∃ e, _ ∧ (World.after (EStateM.bind _ k w)).server = w.server
    unfold EStateM.bind EngineM.onServer
    cases hr : remove p w.server with
    | ok s => exact Or.inl ⟨s, rfl, hk () _⟩
    | error e => exact Or.inr ⟨e, rfl, rfl⟩
  rw [server_runAction]
  cases a with
  | deleteRemote p => exact hcall p _ fun _ _ => rfl
  | removeRemoteDirectory p => exact hcall p _ fun _ _ => rfl
  | _ => exact absurd h (by simp [Action.removes])

/-- A plan runs what creates first, and its removals at the end. -/
theorem plan_split (u : Unicode) (pass : Pass) (w : World) :
    ∃ first last, (pass.plan u w).actions = first ++ last ∧
    (∀ a ∈ first, a ∈ (pass.plan u w).actions ∧ a.early = true) ∧
    ∀ a ∈ last, a ∈ (pass.plan u w).actions ∧ a.early = false := by
  refine ⟨_, _, filter_append_filter_not (f := Action.early) ?_, fun a ha => List.mem_filter.mp ha,
    fun a ha => by simpa using List.mem_filter.mp ha⟩
  rw [plan_eq]
  refine (Held.apply_pairwise actions_pairwise).imp ?_
  intro a b hab hb
  unfold Action.early at hb ⊢
  simp only [decide_eq_true_eq] at hb ⊢
  rcases hab.2 with hlt | ⟨heq, -⟩
  · omega
  · rw [heq]
    exact hb

theorem runActions_append {remote : Snapshot} (xs ys : List Action) :
    runActions u pass remote (xs ++ ys) w =
      runActions u pass remote ys (runActions u pass remote xs w) := List.foldl_append

/-- Once a root's removal has had its turn, nothing comes back at it or inside it. -/
theorem gone_of_removed {a : Action} {pre post : List Action} {w₁ : World}
    (ha : a ∈ (pass.plan u w).actions) (hrem : a.removes = true)
    (hlate : ∀ b ∈ pre ++ a :: post, b ∈ (pass.plan u w).actions ∧ b.early = false)
    (h : Emptying (pass.Takes u w) (pass.Uproots u w) w.server w₁.server) {q : RelPath}
    (hq : atOrInside a.subject q = true) :
    (runActions u pass (pass.remote u w) (pre ++ a :: post) w₁).server.tree.get q = none := by
  have hroot : pass.Uproots u w a.subject := ⟨a, ha, hrem, rfl⟩
  have hlisted : w.server.tree.get a.subject ≠ none := by
    obtain ⟨-, e, he⟩ := hroot.spec
    simp [(remote_eq_some he).1]
  have hpre := late_invariant pre (fun b hb => hlate b (List.mem_append_left _ hb))
    (fun server p s hp hs hE => hE.of_remove (fun r hr => ⟨p, hp, hr⟩) hs) h
  rw [runActions_append]
  generalize runActions u pass (pass.remote u w) pre w₁ = w₂ at hpre ⊢
  have hturn : (runAction u pass (pass.remote u w) a w₂).server.tree.get q = none := by
    obtain ⟨hok, herr⟩ := hpre.gone_after hroot hlisted
    rcases server_runAction_removes hrem with ⟨s, hs, hserver⟩ | ⟨e, he, hserver⟩
    · rw [hserver]
      exact hok s hs q hq
    · rw [hserver]
      exact herr e he q hq
  refine late_invariant (K := fun s => s.tree.get q = none) post
    (fun b hb => hlate b (List.mem_append_right _ (List.mem_cons_of_mem a hb))) ?_ hturn
  intro server p s _ hs hnone
  rw [(remove_ok hs).2.1]
  unfold cut
  split_ifs
  · rfl
  · exact hnone

/-- **A pass sends to the trash exactly what the server had at or inside a planned removal.** -/
theorem mem_trashed_iff (hL : pass.scan.snapshot.TreeShaped) {x : RelPath × Entry} :
    x ∈ pass.trashed u w ↔ pass.Takes u w x.1 ∧ w.server.tree.get x.1 = some x.2 := by
  obtain ⟨first, last, hplan, hfirst, hlast⟩ := plan_split u pass w
  have hstart : Untouched (pass.Takes u w) w.server { w with report := pass.report u w }.server :=
    ⟨rfl, fun _ _ => rfl⟩
  have hearly := (untouched_of_early hL hfirst hstart).emptying
    fun p hp => (⟨p, hp, atOrInside_iff.mpr (Or.inl rfl)⟩ : pass.Takes u w p)
  have hran : pass.ran u w = runActions u pass (pass.remote u w) last
      (runActions u pass (pass.remote u w) first { w with report := pass.report u w }) := by
    unfold ran
    rw [hplan, runActions_append]
  generalize runActions u pass (pass.remote u w) first { w with report := pass.report u w } = w₁
    at hearly hran
  have hend := late_invariant last hlast
    (fun server p s hp hs hE => hE.of_remove (fun r hr => ⟨p, hp, hr⟩) hs) hearly
  unfold trashed
  rw [syncOnce_server, hran]
  constructor
  · obtain ⟨more, hmore, hlisted⟩ := hend.gained
    rw [hmore, List.drop_left]
    exact hlisted x
  · rintro ⟨hx, hget⟩
    refine (hend.kept x.1 x.2 hx hget).resolve_left fun hstill => ?_
    obtain ⟨p, ⟨a, ha, hrem, rfl⟩, hin⟩ := hx
    have hmem : a ∈ last := by
      refine (List.mem_append.mp (hplan ▸ ha)).resolve_left fun hf => ?_
      have hearly := (hfirst a hf).2
      rw [Action.not_early_of_removes hrem] at hearly
      exact absurd hearly (by simp)
    obtain ⟨pre, post, rfl⟩ := List.append_of_mem hmem
    rw [gone_of_removed ha hrem hlast hearly hin] at hstill
    exact absurd hstill (by simp)

/-! ## What is removed was recorded -/

/-- Everything a pass removes from the server was listed at its start, and recorded as it stood. -/
def RemovalsRecorded (u : Unicode) (pass : Pass) (w : World) : Prop :=
  ∀ x ∈ pass.trashed u w, w.server.tree.get x.1 = some x.2 ∧ w.state.base.get x.1 = some x.2

/-- A directory the pass removes with all it holds: gone from the folder, recorded, everything
compared inside it recorded as listed, and not held back by a share. -/
def Pass.RemovesDirectory (u : Unicode) (pass : Pass) (w : World) (d : RelPath) : Prop :=
  Warranted (pass.localSide u w) (pass.remote u w) (pass.base u w) pass.now
      (.removeRemoteDirectory d) ∧
    pass.held.holdsRemoval (pass.held.uprooted (reconcile (pass.localSide u w) (pass.remote u w)
      (pass.base u w) pass.now).actions) d = false

theorem removesDirectory_iff {d : RelPath} :
    pass.RemovesDirectory u w d ↔ .removeRemoteDirectory d ∈ (pass.plan u w).actions := by
  rw [plan_eq, Held.mem_apply_iff, mem_actions_iff]
  constructor
  · exact fun h => Or.inr ⟨h.1, h.2, nofun⟩
  · rintro (⟨_, _, -, -, e⟩ | ⟨hw, hh, -⟩)
    · cases e
    · exact ⟨hw, hh⟩

/-- When a pass removes only what it recorded: a directory it removes is recorded as one, and what
the filters keep from it inside is recorded as it stands. -/
def RemovesOnlyRecorded (u : Unicode) (pass : Pass) (w : World) : Prop :=
  ∀ d, pass.RemovesDirectory u w d → w.state.base.get d = some .directory ∧
    ∀ q e, q.isInside d = true → w.server.tree.get q = some e →
      (hides u q = true ∨ (pass.unfit u w).containsKey q = true) → w.state.base.get q = some e

/-- The record of what the pass compares. -/
theorem base_of_fits {p : RelPath} {e : Entry} (hp : (pass.remote u w).get p = some e) {o : Option Entry}
    (hb : (pass.base u w).get p = o) : w.state.base.get p = o := by
  rw [Pass.base, get_fits, (remote_eq_some hp).2.2] at hb
  exact hb

/-- **What a pass removes from the server was recorded as it stood exactly when** every directory it
removes is recorded as one, with what is hidden or unfit inside it recorded as it stands. -/
theorem removals_recorded_iff (hL : pass.scan.snapshot.TreeShaped) (hR : w.server.tree.TreeShaped) :
    RemovalsRecorded u pass w ↔ RemovesOnlyRecorded u pass w := by
  constructor
  · intro h d hd
    have hroot : pass.Uproots u w d := ⟨_, removesDirectory_iff.mp hd, rfl, rfl⟩
    refine ⟨?_, fun q e hq he _ => ?_⟩
    · have hlisted := (remote_eq_some hd.1.2.1).1
      exact (h (d, .directory) ((mem_trashed_iff hL).mpr
        ⟨⟨d, hroot, atOrInside_iff.mpr (Or.inl rfl)⟩, hlisted⟩)).2
    · exact (h (q, e) ((mem_trashed_iff hL).mpr
        ⟨⟨d, hroot, atOrInside_iff.mpr (Or.inr hq)⟩, he⟩)).2
  · intro h x hx
    obtain ⟨⟨p, ⟨a, ha, hrem, rfl⟩, hin⟩, hget⟩ := (mem_trashed_iff hL).mp hx
    refine ⟨hget, ?_⟩
    cases a with
    | deleteRemote p =>
      obtain ⟨t, n, hr, -, hb⟩ : Warranted (pass.localSide u w) (pass.remote u w) (pass.base u w)
          pass.now (.deleteRemote p) := by
        rcases Pass.planned ha with hw | ⟨_, _, e, -⟩
        · exact hw
        · cases e
      have hfile := (remote_eq_some hr).1
      rcases atOrInside_iff.mp hin with he | hin
      · have hx1 : x.1 = p := he
        rw [hx1, hfile] at hget
        rw [hx1, base_of_fits hr (hb.trans hr), hget]
      · -- A file has nothing inside.
        have hnone := hR.none_inside (d := p) (by simp [hfile]) hin
        rw [hnone] at hget
        exact absurd hget (by simp)
    | removeRemoteDirectory d =>
      have hd := removesDirectory_iff.mpr ha
      obtain ⟨hdir, hrest⟩ := h d hd
      obtain ⟨-, hlisted, -, hall⟩ := hd.1
      rcases atOrInside_iff.mp hin with he | hin
      · have hx1 : x.1 = d := he
        rw [hx1, (remote_eq_some hlisted).1] at hget
        rw [hx1, hdir, hget]
      · by_cases hseen : hides u x.1 = true ∨ (pass.unfit u w).containsKey x.1 = true
        · exact hrest x.1 x.2 hin hget hseen
        · have hr : (pass.remote u w).get x.1 = some x.2 := by
            rw [not_or, Bool.not_eq_true, Bool.not_eq_true] at hseen
            rw [Pass.remote, get_fits, get_listing, hseen.1, hseen.2]
            exact hget
          exact base_of_fits hr (hall x.1 x.2 hin hr)
    | _ => exact absurd hrem (by simp [Action.removes])

end Removals

/-! ## Two folders -/

/-- A hidden file in `d`. -/
def pathDHidden : RelPath := ⟨"d/.DS_Store".toList, by decide⟩

/-- `d` with one file, on the server and in the record, and nothing here. -/
def deletedHere (inside : RelPath) (recorded : List (RelPath × Tracked)) : World where
  disk := OrdMap.empty
  server := ⟨OrdMap.ofList [(pathD, .directory), (inside, .file ['x'] 1)], []⟩
  state := ⟨OrdMap.ofList recorded⟩
  report := .default

theorem removals_recorded_iff_deletedHere :
    let w := deletedHere pathDA [(pathD, ⟨.directory, none⟩), (pathDA, ⟨.file ['x'] 1, none⟩)]
    let pass := Pass.plain .ascii .unixEpoch OrdMap.empty
    pass.trashed .ascii w = [(pathDA, .file ['x'] 1), (pathD, .directory)] ∧
      (RemovalsRecorded .ascii pass w ↔ RemovesOnlyRecorded .ascii pass w) :=
  ⟨by decide +kernel, removals_recorded_iff (by decide +kernel) (by decide +kernel)⟩

/-- **A hidden file is removed with its directory**, though it was never recorded. -/
theorem hidden_file_removed :
    let w := deletedHere pathDHidden [(pathD, ⟨.directory, none⟩)]
    let pass := Pass.plain .ascii .unixEpoch OrdMap.empty
    pass.Faithful .ascii w ∧ (pathDHidden, .file ['x'] 1) ∈ pass.trashed .ascii w ∧
      ¬RemovalsRecorded .ascii pass w := by
  refine ⟨faithful_plain rfl (by decide) (by decide +kernel), by decide +kernel, fun h => ?_⟩
  have hrecorded := (h (pathDHidden, .file ['x'] 1) (by decide +kernel)).2
  exact absurd hrecorded (by decide +kernel)

end Stashden.Sync
