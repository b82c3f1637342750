import Mathlib.Tactic

/-!
# `LIKE` patterns

A pattern is read into tokens: a wildcard for any text, one for any character, or a character that
stands for itself, which an escape makes of any. `like` answers whether a text matches, or nothing
for a pattern that ends in an escape, which is an error.

`matches_literal` and `matches_any` say what a run of literals and a wildcard match; `tokens_escaped`
and `tokens_plain` how a pattern is read.
-/

namespace Stashden.Lib

/-- One part of a pattern. -/
inductive Token where
  | any
  | one
  | literal (c : Char)
  deriving DecidableEq

/-- What a character that is not escaped stands for. -/
def Token.of (c : Char) : Token := if c = '%' then .any else if c = '_' then .one else .literal c

namespace Like

/-- A pattern read with `\` as the escape; `none` where it ends in one. -/
def tokens : List Char → Option (List Token)
  | [] => some []
  | [c] => if c = '\\' then none else some [.of c]
  | c :: d :: p =>
    if c = '\\' then (tokens p).map (.literal d :: ·) else (tokens (d :: p)).map (.of c :: ·)

/-- Whether a text matches, token by token; a wildcard tries every rest of it. -/
def matchesTokens : List Token → List Char → Bool
  | [], text => text.isEmpty
  | .any :: p, text => text.tails.any (matchesTokens p)
  | .one :: p, text => text.tail?.any (matchesTokens p)
  | .literal c :: p, text => decide (text.head? = some c) && matchesTokens p text.tail

/-- `text LIKE pattern ESCAPE '\'`. -/
def like (pattern text : List Char) : Option Bool :=
  (tokens pattern).map fun p => matchesTokens p text

variable {c : Char} {p : List Char} {rest : List Token} {text : List Char}

theorem tokens_escaped : tokens ('\\' :: c :: p) = (tokens p).map (.literal c :: ·) := by
  rw [tokens, if_pos rfl]

theorem tokens_plain (hc : c ≠ '\\') : tokens (c :: p) = (tokens p).map (.of c :: ·) := by
  cases p with
  | nil => simp [tokens, hc]
  | cons d p => rw [tokens, if_neg hc]

/-- A wildcard for any text passes over some of it. -/
theorem matches_any : matchesTokens (.any :: rest) text = true ↔
    ∃ before after, text = before ++ after ∧ matchesTokens rest after = true := by
  rw [matchesTokens, List.any_eq_true]
  constructor
  · rintro ⟨after, hafter, hm⟩
    obtain ⟨before, rfl⟩ := (List.mem_tails _ _).mp hafter
    exact ⟨before, after, rfl, hm⟩
  · rintro ⟨before, after, rfl, hm⟩
    exact ⟨after, (List.mem_tails _ _).mpr (List.suffix_append _ _), hm⟩

/-- Literals match a text that starts with them. -/
theorem matches_literal (literals : List Char) :
    matchesTokens (literals.map .literal ++ rest) text = true ↔
      ∃ after, text = literals ++ after ∧ matchesTokens rest after = true := by
  induction literals generalizing text with
  | nil => simp
  | cons c literals ih =>
    rw [List.map_cons, List.cons_append, matchesTokens, Bool.and_eq_true, decide_eq_true_eq, ih]
    cases text with
    | nil => simp
    | cons x text =>
      simp only [List.head?_cons, Option.some.injEq, List.tail_cons, List.cons_append,
        List.cons.injEq]
      constructor
      · rintro ⟨rfl, after, rfl, hm⟩
        exact ⟨after, ⟨rfl, rfl⟩, hm⟩
      · rintro ⟨after, ⟨rfl, rfl⟩, hm⟩
        exact ⟨rfl, after, rfl, hm⟩

/-- A wildcard at the end matches whatever is left. -/
theorem matches_rest : matchesTokens [.any] text = true :=
  matches_any.mpr ⟨text, [], (List.append_nil text).symm, rfl⟩

end Like

end Stashden.Lib
