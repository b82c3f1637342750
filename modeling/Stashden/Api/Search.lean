import Stashden.Core.Name
import Stashden.Lib.Like

/-!
# What somebody typed is a literal (`api/src/search.rs:115-126`)

`like_escape` puts an escape before each of the three characters a pattern reads otherwise, in one
pass, so what it adds is not escaped again. `tokens_likeEscape` says that the escaped text is read as
the query's own characters, whatever follows it; `likeEscape_literal` what the two patterns of
`by_name` then match.
-/

namespace Stashden.Api

open Lib Like

/-- `like_escape`. -/
def likeEscape (query : Str) : Str :=
  query.flatMap fun character =>
    if character = '\\' ∨ character = '%' ∨ character = '_' then ['\\', character] else [character]

/-- The escaped text is read as the characters it was made of. -/
theorem tokens_likeEscape (query rest : Str) :
    tokens (likeEscape query ++ rest) = (tokens rest).map (query.map .literal ++ ·) := by
  induction query with
  | nil => simp [likeEscape]
  | cons c query ih =>
    unfold likeEscape at ih ⊢
    rw [List.flatMap_cons, List.append_assoc]
    by_cases hc : c = '\\' ∨ c = '%' ∨ c = '_'
    · rw [if_pos hc, List.cons_append, List.singleton_append, tokens_escaped, ih, Option.map_map]
      rfl
    · obtain ⟨hback, hany, hone⟩ : c ≠ '\\' ∧ c ≠ '%' ∧ c ≠ '_' := by tauto
      have hof : Token.of c = .literal c := by rw [Token.of, if_neg hany, if_neg hone]
      rw [if_neg hc, List.singleton_append, tokens_plain hback, ih, Option.map_map, hof]
      rfl

/-- **The escaped query is literal**: between two wildcards it matches what contains it, before one
what starts with it, and it never ends in an escape that is left over. -/
theorem likeEscape_literal (query name : Str) :
    like ("%".toList ++ likeEscape query ++ "%".toList) name = some (decide (query <:+: name)) ∧
    like (likeEscape query ++ "%".toList) name = some (decide (query <+: name)) ∧
    tokens (likeEscape query) ≠ none := by
  have hrest : tokens "%".toList = some [.any] := rfl
  refine ⟨?_, ?_, ?_⟩
  · have hread : tokens ("%".toList ++ likeEscape query ++ "%".toList) =
        some (.any :: (query.map .literal ++ [.any])) := by
      show tokens ('%' :: (likeEscape query ++ "%".toList)) = _
      rw [tokens_plain (by decide), tokens_likeEscape, hrest]
      rfl
    rw [like, hread, Option.map_some, Option.some.injEq, Bool.eq_iff_iff, matches_any,
      decide_eq_true_eq]
    constructor
    · rintro ⟨before, after, rfl, hm⟩
      obtain ⟨tail, rfl, -⟩ := (matches_literal query).mp hm
      exact ⟨before, tail, List.append_assoc _ _ _⟩
    · rintro ⟨before, tail, rfl⟩
      exact ⟨before, query ++ tail, List.append_assoc _ _ _,
        (matches_literal query).mpr ⟨tail, rfl, matches_rest⟩⟩
  · rw [like, tokens_likeEscape, hrest, Option.map_some, Option.map_some, Option.some.injEq,
      Bool.eq_iff_iff, matches_literal, decide_eq_true_eq]
    constructor
    · rintro ⟨tail, rfl, -⟩
      exact List.prefix_append _ _
    · rintro ⟨tail, rfl⟩
      exact ⟨tail, rfl, matches_rest⟩
  · have hread := tokens_likeEscape query []
    rw [List.append_nil] at hread
    rw [hread]
    simp [tokens]

end Stashden.Api
