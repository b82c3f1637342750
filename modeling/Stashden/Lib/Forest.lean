import Mathlib.Tactic

/-!
# Forests by their parents

A forest is a function that answers the parent of a node, where it has one. `Up parent a b` follows
parents from `a` to `b`; two nodes above the same one are above each other (`Up.total`). A node is
`Grounded` when its parents end, which is what no cycle means for it: no other node is both above and
below a grounded one (`Up.antisymm`).

`grounded_reparent` is the rule for every change of parents: the nodes that moved all moved to one
place, and nothing above that place moved.
-/

namespace Stashden.Lib

universe u

variable {κ : Type u} {parent parent' : κ → Option κ} {a b c p r : κ}

/-- Following parents from `a` leads to `b`. -/
def Up (parent : κ → Option κ) (a b : κ) : Prop :=
  Relation.ReflTransGen (fun x y => parent x = some y) a b

/-- The parents of `a` end. -/
def Grounded (parent : κ → Option κ) (a : κ) : Prop := ∃ r, Up parent a r ∧ parent r = none

namespace Up

theorem refl : Up parent a a := Relation.ReflTransGen.refl

theorem single (h : parent a = some b) : Up parent a b := Relation.ReflTransGen.single h

theorem trans (h : Up parent a b) (h' : Up parent b c) : Up parent a c :=
  Relation.ReflTransGen.trans h h'

theorem head (h : parent a = some b) (h' : Up parent b c) : Up parent a c :=
  Relation.ReflTransGen.head h h'

theorem tail (h : Up parent a b) (h' : parent b = some c) : Up parent a c :=
  Relation.ReflTransGen.tail h h'

theorem cases_head (h : Up parent a b) : a = b ∨ ∃ c, parent a = some c ∧ Up parent c b :=
  Relation.ReflTransGen.cases_head h

theorem cases_tail (h : Up parent a b) : b = a ∨ ∃ c, Up parent a c ∧ parent c = some b :=
  Relation.ReflTransGen.cases_tail h

/-- Above a node without a parent there is nothing. -/
theorem eq_of_none (h : Up parent a b) (ha : parent a = none) : a = b := by
  obtain rfl | ⟨c, hc, -⟩ := h.cases_head
  · rfl
  · rw [ha] at hc
    cases hc

/-- Two nodes above the same one: one is above the other. -/
theorem total (h : Up parent a b) (h' : Up parent a c) : Up parent b c ∨ Up parent c b := by
  induction h with
  | refl => exact Or.inl h'
  | @tail x y _ hxy ih =>
    rcases ih with hxc | hcx
    · obtain rfl | ⟨z, hz, hzc⟩ := hxc.cases_head
      · exact Or.inr (single hxy)
      · rw [hxy] at hz
        cases hz
        exact Or.inl hzc
    · exact Or.inr (hcx.tail hxy)

theorem mono (h : Up parent a b) (hsub : ∀ x y, parent x = some y → parent' x = some y) :
    Up parent' a b := by
  induction h with
  | refl => exact refl
  | tail _ hxy ih => exact ih.tail (hsub _ _ hxy)

/-- A node all parents on the way keep is reached as before. -/
theorem congr (h : Up parent a b) (hsame : ∀ x, Up parent a x → x ≠ b → parent' x = parent x) :
    Up parent' a b := by
  induction h using Relation.ReflTransGen.head_induction_on with
  | refl => exact refl
  | @head x y hxy hyb ih =>
    by_cases hxb : x = b
    · rw [hxb]
      exact refl
    · exact head (by rw [hsame x refl hxb, hxy]) (ih fun z hz => hsame z (hz.head hxy))

end Up

/-- A chain that ends goes on from every node on it. -/
theorem Grounded.of_up (h : Grounded parent a) (hab : Up parent a b) : Grounded parent b := by
  obtain ⟨r, har, hr⟩ := h
  rcases hab.total har with hbr | hrb
  · exact ⟨r, hbr, hr⟩
  · obtain rfl := hrb.eq_of_none hr
    exact ⟨r, .refl, hr⟩

theorem Grounded.of_parent (h : Grounded parent b) (hab : parent a = some b) : Grounded parent a := by
  obtain ⟨r, hbr, hr⟩ := h
  exact ⟨r, hbr.head hab, hr⟩

/-- A grounded node is not its own ancestor. -/
theorem Grounded.not_up_parent (h : Grounded parent a) (hab : parent a = some b) :
    ¬ Up parent b a := by
  obtain ⟨r, har, hr⟩ := h
  -- every node from `a` on would have `a` above it, the last one included
  suffices key : Up parent b a → ∀ x, Up parent a x → Up parent x a from fun hba => by
    have hra := key hba r har
    obtain rfl := hra.eq_of_none hr
    rw [hr] at hab
    cases hab
  intro hba x hx
  induction hx with
  | refl => exact .refl
  | @tail x y _ hxy ih =>
    obtain rfl | ⟨z, hz, hza⟩ := ih.cases_head
    · rw [hab] at hxy
      cases hxy
      exact hba
    · rw [hxy] at hz
      cases hz
      exact hza

theorem Up.antisymm (hg : Grounded parent a) (hab : Up parent a b) (hba : Up parent b a) : a = b := by
  obtain rfl | ⟨c, hc, hcb⟩ := hab.cases_head
  · rfl
  · exact absurd (hcb.trans hba) (hg.not_up_parent hc)

/-- Induction along the parents of a grounded node. -/
theorem Grounded.induction {motive : κ → Prop} (h : Grounded parent a)
    (root : ∀ x, parent x = none → motive x)
    (below : ∀ x y, parent x = some y → motive y → motive x) : motive a := by
  obtain ⟨r, har, hr⟩ := h
  induction har using Relation.ReflTransGen.head_induction_on with
  | refl => exact root r hr
  | @head x y hxy _ ih => exact below x y hxy ih

/-- **Induction down a forest** of finitely many nodes: a node after everything directly below it. -/
theorem Grounded.descend {motive : κ → Prop} (hg : ∀ x, Grounded parent x) (all : List κ)
    (hall : ∀ x y, parent x = some y → x ∈ all)
    (below : ∀ x, (∀ y, parent y = some x → motive y) → motive x) (a : κ) : motive a := by
  classical
  -- what is strictly below a node gets less on the way down
  let under : κ → List κ := fun x => all.filter fun z => ∃ w, parent z = some w ∧ Up parent w x
  have hunder : ∀ x y, parent y = some x → (under y).length < (under x).length := by
    intro x y hyx
    have hsub : under y = (under x).filter fun z => ∃ w, parent z = some w ∧ Up parent w y := by
      rw [List.filter_filter]
      refine List.filter_congr fun z _ => ?_
      rw [eq_comm, Bool.and_eq_left_iff_imp]
      simp only [decide_eq_true_eq]
      rintro ⟨w, hzw, hwy⟩
      exact ⟨w, hzw, hwy.tail hyx⟩
    rw [hsub, List.length_filter_lt_length_iff_exists]
    refine ⟨y, List.mem_filter.mpr ⟨hall y x hyx, by simpa using ⟨x, hyx, .refl⟩⟩, ?_⟩
    simp only [decide_eq_true_eq, not_exists, not_and]
    rintro w hyw hwy
    exact (hg y).not_up_parent hyw hwy
  induction hn : (under a).length using Nat.strong_induction_on generalizing a with
  | _ n ih => exact below a fun y hy => ih _ (hn ▸ hunder a y hy) y rfl

/-- **Moving nodes keeps parents ending**, where all of them move to one place and nothing from that
place up moves. -/
theorem grounded_reparent (moved : κ → Prop) (hsame : ∀ x, ¬ moved x → parent' x = parent x)
    (hmoved : ∀ x, moved x → parent' x = some p) (hp : Grounded parent p)
    (hstill : ∀ x, Up parent p x → ¬ moved x) (ha : Grounded parent a) : Grounded parent' a := by
  have hp' : Grounded parent' p := by
    obtain ⟨r, hpr, hr⟩ := hp
    exact ⟨r, hpr.congr fun x hx _ => hsame x (hstill x hx), by rw [hsame r (hstill r hpr), hr]⟩
  refine ha.induction (fun x hx => ?_) fun x y hxy ih => ?_
  · by_cases hm : moved x
    · exact hp'.of_parent (hmoved x hm)
    · exact ⟨x, .refl, by rw [hsame x hm, hx]⟩
  · by_cases hm : moved x
    · exact hp'.of_parent (hmoved x hm)
    · exact ih.of_parent (by rw [hsame x hm, hxy])

/-- Taking nodes away keeps parents ending. -/
theorem grounded_shrink (hsub : ∀ x, parent' x = parent x ∨ parent' x = none)
    (ha : Grounded parent a) : Grounded parent' a := by
  refine ha.induction (fun x hx => ⟨x, .refl, ?_⟩) fun x y hxy ih => ?_
  · rcases hsub x with h | h
    · rw [h, hx]
    · exact h
  · rcases hsub x with h | h
    · exact ih.of_parent (by rw [h, hxy])
    · exact ⟨x, .refl, h⟩

/-- What is above a node that did not move is above it still. -/
theorem up_iff_of_still (hsame : ∀ x, Up parent a x → parent' x = parent x) :
    Up parent' a b ↔ Up parent a b := by
  constructor
  · intro h
    induction h with
    | refl => exact .refl
    | tail _ hxy ih => exact ih.tail (by rw [← hsame _ ih, hxy])
  · exact fun h => h.congr fun x hx _ => hsame x hx

end Stashden.Lib
