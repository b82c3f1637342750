import Stashden.Api.Locks
import Stashden.Lib.Uri

/-!
# The tokens of an `If` header (`api/src/dav/locks.rs:172-266`)

`submitted_tokens` scans for angle brackets. The header it stands in for is a list of condition lists,
each behind a resource tag or none of them; the grammar is a relation between a header and its text
(`HeaderText`), where blanks may stand between any two parts.

* `mem_scan`: what the scan takes is what an outermost pair of brackets holds.
* `scan_header`: over a header it takes the lock tokens of all it has in brackets.
* `letsThrough_of_tokens`: the locks a write gets past have their tokens among those taken.
* `submittedTokens_iff` is when it answers as the header means.
-/

namespace Stashden.Dav

open Lib Api Tx

/-- What every token of this server starts with. -/
def tokenPrefix : Str := "opaquelocktoken:".toList

def isLockToken (text : Str) : Bool := tokenPrefix.isPrefixOf text

/-- `find`: what stands before the first such character, and what is behind it. -/
def cut (c : Char) : Str → Option (Str × Str)
  | [] => none
  | d :: text => if d = c then some ([], text) else (cut c text).map fun (a, b) => (d :: a, b)

theorem cut_eq_some {c : Char} {text a b : Str} (h : cut c text = some (a, b)) :
    text = a ++ c :: b ∧ c ∉ a := by
  induction text generalizing a b with
  | nil => cases h
  | cons d text ih =>
    unfold cut at h
    split_ifs at h with hd
    · cases h
      exact ⟨by rw [hd, List.nil_append], List.not_mem_nil⟩
    · obtain ⟨⟨a', b'⟩, hcut, heq⟩ := Option.map_eq_some_iff.mp h
      cases heq
      obtain ⟨rfl, hnot⟩ := ih hcut
      exact ⟨rfl, fun hmem => (List.mem_cons.mp hmem).elim (fun e => hd e.symm) hnot⟩

/-- The loop of `submitted_tokens`, from `rest`. -/
def scan (rest : Str) : List Str :=
  match _hstart : cut '<' rest with
  | none => []
  | some (_, inner) =>
    match _hend : cut '>' inner with
    | none => []
    | some (candidate, after) =>
      if isLockToken candidate then candidate :: scan after else scan after
termination_by rest.length
decreasing_by
  all_goals
    obtain ⟨rfl, -⟩ := cut_eq_some _hend
    obtain ⟨rfl, -⟩ := cut_eq_some _hstart
    simp only [List.length_append, List.length_cons]
    omega

/-- `submitted_tokens`. -/
def submittedTokens (header : Option Str) : List Str :=
  match header with
  | none => []
  | some raw => scan raw

/-! ## The header -/

/-- What a condition asks for. -/
inductive Asked where
  | token (url : Str)
  | entityTag (tag : Str)

/-- A condition, behind `Not` or on its own. -/
structure Condition where
  negated : Bool
  asked : Asked

/-- An `If` header: condition lists, or lists behind resource tags. -/
inductive IfHeader where
  | untagged (lists : List (List Condition))
  | tagged (groups : List (Str × List (List Condition)))

def Blank (text : Str) : Prop := ∀ c ∈ text, c = ' ' ∨ c = '\t'

/-- A resource tag: an absolute URI, or an absolute path. -/
def ResourceTag (text : Str) : Prop := Uri.AbsoluteUri text ∨ Uri.PathReference text

/-- What an entity tag may have between its quotes. -/
def isTagChar (c : Char) : Bool := decide (0x21 ≤ c.toNat ∧ c.toNat ≠ 0x7F ∧ c ≠ '"')

/-- An entity tag, weak or strong. -/
def IsEntityTag (tag : Str) : Prop :=
  ∃ opaqueTag : Str, opaqueTag.all isTagChar = true ∧
    (tag = '"' :: opaqueTag ++ ['"'] ∨ tag = "W/".toList ++ '"' :: opaqueTag ++ ['"'])

/-- The text of a condition. -/
inductive ConditionText : Condition → Str → Prop
  | token {url : Str} (h : Uri.AbsoluteUri url) :
    ConditionText ⟨false, .token url⟩ ('<' :: url ++ ['>'])
  | entityTag {tag : Str} (h : IsEntityTag tag) :
    ConditionText ⟨false, .entityTag tag⟩ ('[' :: tag ++ [']'])
  | negated {asked : Asked} {word blanks text : Str} (hword : word.map Char.toLower = "not".toList)
    (hb : Blank blanks) (h : ConditionText ⟨false, asked⟩ text) :
    ConditionText ⟨true, asked⟩ (word ++ blanks ++ text)

/-- The text of some parts in a row, with blanks around them. -/
inductive Sequence {α : Type} (part : α → Str → Prop) : List α → Str → Prop
  | nil {blanks : Str} (h : Blank blanks) : Sequence part [] blanks
  | cons {a : α} {parts : List α} {blanks text rest : Str} (hb : Blank blanks) (ha : part a text)
    (hs : Sequence part parts rest) : Sequence part (a :: parts) (blanks ++ text ++ rest)

/-- The text of a condition list, which is not empty. -/
def ListText (list : List Condition) (text : Str) : Prop :=
  list ≠ [] ∧ ∃ inner, Sequence ConditionText list inner ∧ text = '(' :: inner ++ [')']

/-- The text of a resource tag with its lists. -/
def GroupText (group : Str × List (List Condition)) (text : Str) : Prop :=
  ResourceTag group.1 ∧ group.2 ≠ [] ∧
    ∃ lists, Sequence ListText group.2 lists ∧ text = '<' :: group.1 ++ '>' :: lists

/-- **The text of an `If` header**, `1*No-tag-list | 1*Tagged-list`. -/
def HeaderText : IfHeader → Str → Prop
  | .untagged lists, text => lists ≠ [] ∧ Sequence ListText lists text
  | .tagged groups, text => groups ≠ [] ∧ Sequence GroupText groups text

namespace IfHeader

/-- The condition lists of a header. -/
def lists : IfHeader → List (List Condition)
  | .untagged lists => lists
  | .tagged groups => groups.flatMap Prod.snd

/-- The resource tags of a header. -/
def tags : IfHeader → List Str
  | .untagged _ => []
  | .tagged groups => groups.map Prod.fst

end IfHeader

/-- A condition that is a token, and is not negated. -/
def Condition.Plain (c : Condition) : Prop := c.negated = false ∧ ∃ url, c.asked = .token url

/-- A header of tokens alone. -/
def IfHeader.Plain (h : IfHeader) : Prop := ∀ list ∈ h.lists, ∀ c ∈ list, c.Plain

/-- The lock token a condition submits. -/
def Condition.lockToken (c : Condition) : List Str :=
  match c with
  | ⟨false, .token url⟩ => [url].filter isLockToken
  | _ => []

/-- The lock tokens that stand in the condition lists. -/
def IfHeader.lockTokens (h : IfHeader) : List Str := h.lists.flatMap (·.flatMap Condition.lockToken)

/-- What a condition has in angle brackets, negated or not. -/
def Condition.coded (c : Condition) : List Str :=
  match c.asked with
  | .token url => [url]
  | .entityTag _ => []

/-- What a header has in angle brackets: its resource tags, and its tokens. -/
def IfHeader.coded : IfHeader → List Str
  | .untagged lists => lists.flatMap (·.flatMap Condition.coded)
  | .tagged groups => groups.flatMap fun group =>
    group.1 :: group.2.flatMap (·.flatMap Condition.coded)

/-- No entity tag has an angle bracket that opens. -/
def IfHeader.Unopened (h : IfHeader) : Prop :=
  ∀ list ∈ h.lists, ∀ c ∈ list, ∀ tag, c.asked = .entityTag tag → '<' ∉ tag

/-! ## The locks a header gets past -/

/-- The token `take` makes of an id, which `display` writes. -/
def tokenOf (display : Uuid → Str) (id : Uuid) : Str := tokenPrefix ++ display id

/-- The ids whose tokens a header submits. -/
def Submits (display : Uuid → Str) (header : Option Str) (submitted : List Uuid) : Prop :=
  ∀ id, id ∈ submitted ↔ tokenOf display id ∈ submittedTokens header

/-- A write that the header comes with gets past no lock but by one of these tokens: not past those
that cover its node (`allows`), nor past those below it (`none_below`). -/
structure LetsThrough (display : Uuid → Str) (tokens : List Str) (header : Option Str) : Prop where
  covering : ∀ {submitted limit node} {db db' : Db}, Submits display header submitted →
    (allows limit node submitted).Returns db () db' → db.coveringRows node.id ≠ [] →
      ∃ lock ∈ db.coveringRows node.id, tokenOf display lock.token ∈ tokens
  below : ∀ {submitted node} {db db' : Db}, Submits display header submitted →
    (noneBelow node submitted).Returns db () db' →
      ∀ lock ∈ db.rowsBelow node.id, tokenOf display lock.token ∈ tokens

/-! ## What is to hold, and when it does -/

/-- The tokens taken are these, and no other gets a write past a lock. -/
def AnswersWith (display : Uuid → Str) (raw : Str) (tokens : List Str) : Prop :=
  submittedTokens (some raw) = tokens ∧ LetsThrough display tokens (some raw)

/-- What `submitted_tokens` says of itself: the lock tokens of the lists of a header of tokens alone,
and none of a header that has a `Not` or an entity tag, or is none. -/
structure Meets (display : Uuid → Str) (raw : Str) : Prop where
  plain : ∀ header, HeaderText header raw → header.Plain → AnswersWith display raw header.lockTokens
  conditional : (∃ header, HeaderText header raw ∧ ¬ header.Plain) → AnswersWith display raw []
  malformed : (¬ ∃ header, HeaderText header raw) → AnswersWith display raw []

/-- A bracket is open at the end of a text. -/
def Opens (text : Str) : Prop := ∃ a b, text = a ++ '<' :: b ∧ '>' ∉ b

/-- What a lock token starts with stands behind a bracket only where that one is never closed, or
another one before it is still open. -/
def Shut (raw : Str) : Prop :=
  ∀ before after, raw = before ++ '<' :: (tokenPrefix ++ after) → '>' ∈ after → Opens before

/-- When the scan answers as the header means. -/
structure HoldsWhen (raw : Str) : Prop where
  plain : ∀ header, HeaderText header raw → header.Plain → ∀ tag ∈ header.tags,
    isLockToken tag = false
  conditional : ∀ header, HeaderText header raw → ¬ header.Plain → header.Unopened →
    ∀ text ∈ header.coded, isLockToken text = false
  opened : ∀ header, HeaderText header raw → ¬ header.Plain → ¬ header.Unopened → Shut raw
  malformed : (¬ ∃ header, HeaderText header raw) → Shut raw

variable {raw text rest token before : Str}

/-! ## The scan -/

theorem cut_append {c : Char} {a : Str} (ha : c ∉ a) (b : Str) : cut c (a ++ c :: b) = some (a, b) := by
  induction a with
  | nil => rw [List.nil_append, cut, if_pos rfl]
  | cons d a ih =>
    obtain ⟨hd, hrest⟩ := not_or.mp fun h => ha (List.mem_cons.mpr h)
    rw [List.cons_append, cut, if_neg fun h => hd h.symm, ih hrest]
    rfl

theorem cut_none {c : Char} {text : Str} (h : c ∉ text) : cut c text = none := by
  cases hcut : cut c text with
  | none => rfl
  | some ab =>
    obtain ⟨rfl, -⟩ := cut_eq_some hcut
    exact absurd (List.mem_append_right _ List.mem_cons_self) h

/-- A pair of brackets gives what it holds, where that is a lock token. -/
theorem scan_bracket (hbefore : '<' ∉ before) (htoken : '>' ∉ token) (rest : Str) :
    scan (before ++ '<' :: (token ++ '>' :: rest)) = [token].filter isLockToken ++ scan rest := by
  rw [scan]
  split
  · rename_i hstart
    rw [cut_append hbefore] at hstart
    cases hstart
  · rename_i hstart
    rw [cut_append hbefore] at hstart
    cases hstart
    split
    · rename_i hend
      rw [cut_append htoken] at hend
      cases hend
    · rename_i hend
      rw [cut_append htoken] at hend
      cases hend
      split_ifs with hlock
      · rw [List.filter_cons_of_pos hlock]
        rfl
      · rw [List.filter_cons_of_neg hlock]
        rfl

theorem scan_none (h : '<' ∉ text) : scan text = [] := by
  rw [scan]
  split
  · rfl
  · rename_i hstart
    rw [cut_none h] at hstart
    cases hstart

theorem scan_nil : scan [] = [] := scan_none List.not_mem_nil

theorem scan_open (hbefore : '<' ∉ before) (htext : '>' ∉ text) : scan (before ++ '<' :: text) = [] := by
  rw [scan]
  split
  · rfl
  · rename_i hstart
    rw [cut_append hbefore] at hstart
    cases hstart
    split
    · rfl
    · rename_i hend
      rw [cut_none htext] at hend
      cases hend

/-- A text as the scan takes it: it opens no bracket, one it does not close, or one that it does. -/
theorem bracket_cases (text : Str) : '<' ∉ text ∨
    (∃ before inner, text = before ++ '<' :: inner ∧ '<' ∉ before ∧ '>' ∉ inner) ∨
    ∃ before token rest, text = before ++ '<' :: (token ++ '>' :: rest) ∧ '<' ∉ before ∧
      '>' ∉ token := by
  by_cases hopen : '<' ∈ text
  · obtain ⟨before, inner, rfl, hbefore⟩ := List.eq_append_cons_of_mem hopen
    by_cases hclose : '>' ∈ inner
    · obtain ⟨token, rest, rfl, htoken⟩ := List.eq_append_cons_of_mem hclose
      exact Or.inr (Or.inr ⟨before, token, rest, rfl, hbefore, htoken⟩)
    · exact Or.inr (Or.inl ⟨before, inner, rfl, hbefore, hclose⟩)
  · exact Or.inl hopen

/-- What opens no bracket is passed over. -/
theorem scan_append (h : '<' ∉ before) (rest : Str) : scan (before ++ rest) = scan rest := by
  have happend {a : Str} (ha : '<' ∉ a) : '<' ∉ before ++ a :=
    fun hmem => (List.mem_append.mp hmem).elim h ha
  rcases bracket_cases rest with hrest | ⟨a, inner, rfl, ha, hinner⟩ | ⟨a, t, r, rfl, ha, ht⟩
  · rw [scan_none hrest, scan_none (happend hrest)]
  · rw [← List.append_assoc, scan_open ha hinner, scan_open (happend ha) hinner]
  · rw [← List.append_assoc, scan_bracket ha ht, scan_bracket (happend ha) ht]

theorem not_opens (h : '<' ∉ text) : ¬ Opens text := by
  rintro ⟨a, b, rfl, -⟩
  exact h (List.mem_append_right _ List.mem_cons_self)

/-- A pair of brackets leaves none open. -/
theorem opens_closed (before token rest : Str) :
    Opens (before ++ '<' :: (token ++ '>' :: rest)) ↔ Opens rest := by
  have hsplit : before ++ '<' :: (token ++ '>' :: rest) =
      (before ++ '<' :: token) ++ '>' :: rest := by
    rw [List.append_assoc, List.cons_append]
  rw [hsplit]
  constructor
  · rintro ⟨a, b, heq, hb⟩
    rcases List.append_eq_append_iff.mp heq with ⟨c, -, hrest⟩ | ⟨c, -, hrest⟩
    · cases c with
      | nil => cases (List.cons_eq_cons.mp hrest).1
      | cons _ c => exact ⟨c, b, (List.cons_eq_cons.mp hrest).2, hb⟩
    · have hmem : '>' ∈ '<' :: b := hrest ▸ List.mem_append_right _ List.mem_cons_self
      exact absurd hmem (List.not_mem_cons_of_ne_of_not_mem (by decide) hb)
  · rintro ⟨a, b, rfl, hb⟩
    exact ⟨before ++ '<' :: token ++ '>' :: a, b, by simp, hb⟩

/-- **What the scan takes**: the lock tokens that an outermost pair of brackets holds. -/
theorem mem_scan : token ∈ scan raw ↔ isLockToken token = true ∧ '>' ∉ token ∧
    ∃ before after, raw = before ++ '<' :: (token ++ '>' :: after) ∧ ¬ Opens before := by
  constructor
  · intro hmem
    induction hn : raw.length using Nat.strong_induction_on generalizing raw with
    | _ n ih =>
      rcases bracket_cases raw with hraw | ⟨a, inner, rfl, ha, hinner⟩ | ⟨a, t, r, rfl, ha, ht⟩
      · rw [scan_none hraw] at hmem
        cases hmem
      · rw [scan_open ha hinner] at hmem
        cases hmem
      · rw [scan_bracket ha ht] at hmem
        rcases List.mem_append.mp hmem with hmem | hmem
        · obtain ⟨hin, hlock⟩ := List.mem_filter.mp hmem
          cases List.mem_singleton.mp hin
          exact ⟨hlock, ht, a, r, rfl, not_opens ha⟩
        · have hlt : r.length < n := by
            rw [← hn]
            simp only [List.length_append, List.length_cons]
            omega
          obtain ⟨hlock, htoken, before, after, rfl, hout⟩ := ih _ hlt hmem rfl
          refine ⟨hlock, htoken, a ++ '<' :: (t ++ '>' :: before), after, by simp, ?_⟩
          rwa [opens_closed]
  · rintro ⟨hlock, htoken, before, after, rfl, hout⟩
    induction hn : before.length using Nat.strong_induction_on generalizing before with
    | _ n ih =>
      rcases bracket_cases before with hb | ⟨a, inner, rfl, ha, hinner⟩ | ⟨a, t, r, rfl, ha, ht⟩
      · rw [scan_bracket hb htoken]
        exact List.mem_append_left _ (List.mem_filter.mpr ⟨List.mem_singleton_self _, hlock⟩)
      · exact absurd ⟨a, inner, rfl, hinner⟩ hout
      · have hlt : r.length < n := by
          rw [← hn]
          simp only [List.length_append, List.length_cons]
          omega
        rw [opens_closed] at hout
        have hsplit : a ++ '<' :: (t ++ '>' :: r) ++ '<' :: (token ++ '>' :: after) =
            a ++ '<' :: (t ++ '>' :: (r ++ '<' :: (token ++ '>' :: after))) := by simp
        rw [hsplit, scan_bracket ha ht]
        exact List.mem_append_right _ (ih _ hlt r hout rfl)

theorem isLockToken_iff : isLockToken text = true ↔ ∃ x, text = tokenPrefix ++ x := by
  unfold isLockToken
  rw [List.isPrefixOf_iff_prefix]
  exact exists_congr fun _ => eq_comm

theorem shut_iff : Shut raw ↔ scan raw = [] := by
  rw [List.eq_nil_iff_forall_not_mem]
  constructor
  · intro h token hmem
    obtain ⟨hlock, htoken, before, after, heq, hout⟩ := mem_scan.mp hmem
    obtain ⟨x, rfl⟩ := isLockToken_iff.mp hlock
    rw [List.append_assoc] at heq
    exact hout (h before _ heq (List.mem_append_right _ List.mem_cons_self))
  · intro h before after heq hclosed
    by_contra hout
    obtain ⟨x, y, rfl, hx⟩ := List.eq_append_cons_of_mem hclosed
    have htoken : '>' ∉ tokenPrefix ++ x := fun hmem =>
      (List.mem_append.mp hmem).elim (by decide) hx
    refine h _ (mem_scan.mpr ⟨isLockToken_iff.mpr ⟨x, rfl⟩, htoken, before, y, ?_, hout⟩)
    rw [heq, List.append_assoc]

/-! ## The scan of a header -/

theorem blank_open {blanks : Str} (h : Blank blanks) : '<' ∉ blanks := fun hmem =>
  (h _ hmem).elim (by decide) (by decide)

theorem uri_closes (h : Uri.OfUri text) : '>' ∉ text := fun hmem => absurd (h _ hmem) (by decide)

theorem tag_closes (h : ResourceTag text) : '>' ∉ text :=
  h.elim (fun h => uri_closes h.ofUri) fun h => uri_closes h.ofUri

/-- Parts in a row are scanned one after the other. -/
theorem scan_sequence {α : Type} {part : α → Str → Prop} {f : α → List Str} {parts : List α}
    (hpart : ∀ a ∈ parts, ∀ text rest, part a text → scan (text ++ rest) = f a ++ scan rest)
    (h : Sequence part parts text) (rest : Str) :
    scan (text ++ rest) = parts.flatMap f ++ scan rest := by
  induction h with
  | nil hb => rw [scan_append (blank_open hb), List.flatMap_nil, List.nil_append]
  | @cons a parts blanks text _ hb ha _ ih =>
    rw [List.append_assoc, List.append_assoc, scan_append (blank_open hb),
      hpart a List.mem_cons_self text _ ha, ih fun a ha => hpart a (List.mem_cons_of_mem _ ha),
      List.flatMap_cons, List.append_assoc]

theorem scan_condition {c : Condition} (htags : ∀ tag, c.asked = .entityTag tag → '<' ∉ tag)
    (h : ConditionText c text) (rest : Str) :
    scan (text ++ rest) = c.coded.filter isLockToken ++ scan rest := by
  induction h generalizing rest with
  | @token url h =>
    have hsplit : '<' :: url ++ ['>'] ++ rest = [] ++ '<' :: (url ++ '>' :: rest) := by simp
    rw [hsplit, scan_bracket List.not_mem_nil (uri_closes h.ofUri)]
    rfl
  | @entityTag tag =>
    have htag := htags tag rfl
    have hopen : '<' ∉ '[' :: tag ++ [']'] := by simp [htag]
    rw [scan_append hopen]
    rfl
  | @negated asked word blanks text hword hb _ ih =>
    have hopen : '<' ∉ word := by
      intro hmem
      have hlower : Char.toLower '<' ∈ "not".toList := hword ▸ List.mem_map_of_mem hmem
      revert hlower
      decide
    rw [List.append_assoc, List.append_assoc, scan_append hopen, scan_append (blank_open hb),
      ih htags]
    rfl

theorem scan_list {list : List Condition}
    (htags : ∀ c ∈ list, ∀ tag, c.asked = .entityTag tag → '<' ∉ tag) (h : ListText list text)
    (rest : Str) :
    scan (text ++ rest) = (list.flatMap Condition.coded).filter isLockToken ++ scan rest := by
  obtain ⟨-, inner, hinner, rfl⟩ := h
  have hsplit : '(' :: inner ++ [')'] ++ rest = ['('] ++ (inner ++ ([')'] ++ rest)) := by simp
  have hopen : '<' ∉ ['('] := by decide
  have hclose : '<' ∉ [')'] := by decide
  rw [hsplit, scan_append hopen,
    scan_sequence (fun c hc _ rest h => scan_condition (htags c hc) h rest) hinner,
    scan_append hclose, List.filter_flatMap]

theorem scan_lists {lists : List (List Condition)}
    (htags : ∀ list ∈ lists, ∀ c ∈ list, ∀ tag, c.asked = .entityTag tag → '<' ∉ tag)
    (h : Sequence ListText lists text) (rest : Str) : scan (text ++ rest) =
      (lists.flatMap (·.flatMap Condition.coded)).filter isLockToken ++ scan rest := by
  rw [scan_sequence (fun l hl _ rest h => scan_list (htags l hl) h rest) h, List.filter_flatMap]

/-- What the scan takes of a tag with its lists. -/
theorem scan_group {group : Str × List (List Condition)}
    (htags : ∀ list ∈ group.2, ∀ c ∈ list, ∀ tag, c.asked = .entityTag tag → '<' ∉ tag)
    (h : GroupText group text) (rest : Str) : scan (text ++ rest) =
      (group.1 :: group.2.flatMap (·.flatMap Condition.coded)).filter isLockToken ++ scan rest := by
  obtain ⟨htag, -, lists, hlists, rfl⟩ := h
  have hsplit : '<' :: group.1 ++ '>' :: lists ++ rest =
      [] ++ '<' :: (group.1 ++ '>' :: (lists ++ rest)) := by simp
  rw [hsplit, scan_bracket List.not_mem_nil (tag_closes htag), scan_lists htags hlists,
    ← List.append_assoc, ← List.filter_append, List.singleton_append]

/-- **Over a header** the scan takes the lock tokens of all it has in brackets, unless an entity tag
opens one. -/
theorem scan_header {header : IfHeader} (h : HeaderText header raw) (htags : header.Unopened) :
    scan raw = header.coded.filter isLockToken := by
  rw [← List.append_nil raw]
  cases header with
  | untagged lists =>
    rw [scan_lists htags h.2, scan_nil, List.append_nil]
    rfl
  | tagged groups =>
    have hgroups : ∀ group ∈ groups, ∀ list ∈ group.2, ∀ c ∈ list, ∀ tag,
        c.asked = .entityTag tag → '<' ∉ tag :=
      fun group hgroup list hlist => htags list (List.mem_flatMap.mpr ⟨group, hgroup, hlist⟩)
    rw [scan_sequence (fun g hg _ rest h => scan_group (hgroups g hg) h rest) h.2, scan_nil,
      List.append_nil, IfHeader.coded, List.filter_flatMap]

/-! ## A header of tokens alone -/

theorem IfHeader.Plain.unopened {header : IfHeader} (h : header.Plain) : header.Unopened := by
  intro list hlist c hc tag hasked
  obtain ⟨-, url, hurl⟩ := h list hlist c hc
  rw [hurl] at hasked
  cases hasked

theorem Condition.Plain.lockToken {c : Condition} (h : c.Plain) :
    c.coded.filter isLockToken = c.lockToken := by
  obtain ⟨negated, asked⟩ := c
  obtain ⟨rfl, url, rfl⟩ := h
  rfl

theorem lockTokens_of_lists {lists : List (List Condition)}
    (h : ∀ list ∈ lists, ∀ c ∈ list, c.Plain) :
    (lists.flatMap (·.flatMap Condition.coded)).filter isLockToken =
      lists.flatMap (·.flatMap Condition.lockToken) := by
  rw [List.filter_flatMap]
  refine List.flatMap_congr fun list hlist => ?_
  rw [List.filter_flatMap]
  exact List.flatMap_congr fun c hc => (h list hlist c hc).lockToken

/-- Lists that some of which are put before others are the others alone, where none was put. -/
theorem flatMap_append_eq_iff {α β : Type} {items : List α} {f g : α → List β} :
    (items.flatMap fun a => f a ++ g a) = items.flatMap g ↔ ∀ a ∈ items, f a = [] := by
  constructor
  · intro h
    have hlength := congrArg List.length h
    simp only [List.length_flatMap, List.length_append] at hlength
    rw [List.sum_map_add] at hlength
    intro a ha
    have hzero : (items.map fun a => (f a).length).sum = 0 := by omega
    have hmem := List.sum_eq_zero_iff.mp hzero _ (List.mem_map_of_mem ha)
    exact List.length_eq_zero_iff.mp hmem
  · intro h
    refine List.flatMap_congr fun a ha => ?_
    rw [h a ha, List.nil_append]

/-- **Over a header of tokens alone** the scan takes the tokens of the lists, unless a resource tag
looks like one. -/
theorem scan_plain {header : IfHeader} (h : HeaderText header raw) (hplain : header.Plain) :
    scan raw = header.lockTokens ↔ ∀ tag ∈ header.tags, isLockToken tag = false := by
  rw [scan_header h hplain.unopened]
  cases header with
  | untagged lists =>
    have hlists : ∀ list ∈ lists, ∀ c ∈ list, c.Plain := hplain
    rw [IfHeader.coded, lockTokens_of_lists hlists]
    exact iff_of_true rfl fun tag htag => absurd htag List.not_mem_nil
  | tagged groups =>
    have hcoded : (IfHeader.tagged groups).coded.filter isLockToken = groups.flatMap fun group =>
        [group.1].filter isLockToken ++ group.2.flatMap (·.flatMap Condition.lockToken) := by
      rw [IfHeader.coded, List.filter_flatMap]
      refine List.flatMap_congr fun group hgroup => ?_
      rw [← List.singleton_append, List.filter_append, lockTokens_of_lists fun list hlist =>
        hplain list (List.mem_flatMap.mpr ⟨group, hgroup, hlist⟩)]
    rw [hcoded, IfHeader.lockTokens, IfHeader.lists, List.flatMap_assoc, flatMap_append_eq_iff]
    refine Iff.trans (forall₂_congr fun group _ => ?_) List.forall_mem_map.symm
    rw [List.filter_eq_nil_iff]
    simp

/-! ## The locks a write gets past -/

/-- The token of a lock that a write gets past is one of those that are taken. -/
theorem letsThrough_of_tokens {display : Uuid → Str} {tokens : List Str} {header : Option Str}
    (h : submittedTokens header = tokens) : LetsThrough display tokens header where
  covering := by
    intro submitted limit node db db' hsubmits hx hrows
    obtain ⟨lock, m, hlock, hx⟩ := bind_returns.mp hx
    obtain ⟨rfl, rfl⟩ := query_returns.mp hlock
    cases hfirst : limit.first (db.coveringRows node.id) with
    | none =>
      have hsome := limit.isSome _ hrows
      rw [hfirst] at hsome
      cases hsome
    | some lock =>
      rw [hfirst] at hx
      dsimp only at hx
      split_ifs at hx with hmem
      · exact ⟨lock, limit.mem _ _ hfirst, h ▸ (hsubmits _).mp hmem⟩
      · exact absurd hx fail_returns
  below := by
    intro submitted node db db' hsubmits hx lock hlock
    obtain ⟨held, m, hheld, hx⟩ := bind_returns.mp hx
    obtain ⟨rfl, rfl⟩ := query_returns.mp hheld
    rw [← h, ← hsubmits]
    by_contra hnot
    split at hx
    · rename_i hnone
      have hall := List.find?_eq_none.mp hnone _ (List.mem_map_of_mem hlock)
      exact hall (decide_eq_true hnot)
    · exact absurd hx fail_returns

theorem answersWith_iff {display : Uuid → Str} {tokens : List Str} :
    AnswersWith display raw tokens ↔ scan raw = tokens :=
  and_iff_left_of_imp letsThrough_of_tokens

/-- **When a header is answered as it means**: no resource tag of one that has tokens alone looks like
a token; nothing in the brackets of one that has a `Not` or an entity tag does; and where an entity
tag opens a bracket, or the text is no header, nothing that looks like a token is closed. -/
theorem submittedTokens_iff (display : Uuid → Str) (raw : Str) : Meets display raw ↔ HoldsWhen raw := by
  have hcoded : ∀ {header}, HeaderText header raw → header.Unopened →
      (scan raw = [] ↔ ∀ text ∈ header.coded, isLockToken text = false) := by
    intro header htext htags
    rw [scan_header htext htags, List.filter_eq_nil_iff]
    exact forall₂_congr fun _ _ => by rw [Bool.not_eq_true]
  constructor
  · intro h
    have hnone : ∀ {header}, HeaderText header raw → ¬ header.Plain → scan raw = [] :=
      fun htext hnot => (h.conditional ⟨_, htext, hnot⟩).1
    exact ⟨fun header htext hplain =>
        (scan_plain htext hplain).mp (h.plain header htext hplain).1,
      fun header htext hnot htags => (hcoded htext htags).mp (hnone htext hnot),
      fun header htext hnot _ => shut_iff.mpr (hnone htext hnot),
      fun hno => shut_iff.mpr (h.malformed hno).1⟩
  · intro h
    refine ⟨fun header htext hplain =>
      answersWith_iff.mpr ((scan_plain htext hplain).mpr (h.plain header htext hplain)), ?_,
      fun hno => answersWith_iff.mpr (shut_iff.mp (h.malformed hno))⟩
    rintro ⟨header, htext, hnot⟩
    refine answersWith_iff.mpr ?_
    by_cases htags : header.Unopened
    · exact (hcoded htext htags).mpr (h.conditional header htext hnot htags)
    · exact shut_iff.mp (h.opened header htext hnot htags)

/-- A token behind a `Not` is taken for one that was submitted. -/
theorem not_meets_negated : ¬ ∀ display raw, Meets display raw := by
  intro h
  have hblank : Blank [] := by simp [Blank]
  have hspace : Blank " ".toList := by simp [Blank]
  have hpath : Uri.HierPart "x".toList := .path (.plain (by decide) .nil) (by decide)
  have htoken : ConditionText ⟨false, .token "opaquelocktoken:x".toList⟩
      "<opaquelocktoken:x>".toList :=
    .token ⟨"opaquelocktoken".toList, _, [], by decide, hpath, Or.inl rfl, rfl⟩
  have hnegated : ConditionText ⟨true, .token "opaquelocktoken:x".toList⟩
      ("Not".toList ++ " ".toList ++ "<opaquelocktoken:x>".toList) :=
    .negated (by decide) hspace htoken
  have hlist : ListText [⟨true, .token "opaquelocktoken:x".toList⟩]
      "(Not <opaquelocktoken:x>)".toList :=
    ⟨List.cons_ne_nil _ _, _, .cons hblank hnegated (.nil hblank), rfl⟩
  have hheader : HeaderText (.untagged [[⟨true, .token "opaquelocktoken:x".toList⟩]])
      "(Not <opaquelocktoken:x>)".toList :=
    ⟨List.cons_ne_nil _ _, .cons hblank hlist (.nil hblank)⟩
  have hnone := ((h (fun _ => []) _).conditional ⟨_, hheader, fun hplain =>
    Bool.false_ne_true (hplain _ List.mem_cons_self _ List.mem_cons_self).1.symm⟩).1
  have hout : ¬ Opens "(Not ".toList := not_opens (by decide)
  have hmem : "opaquelocktoken:x".toList ∈ scan "(Not <opaquelocktoken:x>)".toList :=
    mem_scan.mpr ⟨by decide, by decide, "(Not ".toList, ")".toList, by decide, hout⟩
  rw [submittedTokens] at hnone
  rw [hnone] at hmem
  cases hmem

end Stashden.Dav
