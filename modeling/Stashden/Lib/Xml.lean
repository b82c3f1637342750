import Mathlib.Tactic

/-!
# A reader of XML

A reader takes a document character by character (`Reader.step`) and builds the element it is; it stops
at the first character that no well-formed, namespace-well-formed document could have there. It reads
elements, attributes, text and the references to the five predefined entities; what a document does not
need for these (comments, sections, instructions, a document type) it does not take.

`Yields` says what some text comes to wherever it stands as content: some items, or the end of the
document's chances. It composes (`yields_append`, `yields_element`), so a document put together from
parts is read part by part, whichever way each comes out.
-/

namespace Stashden.Lib.Xml

abbrev Text := List Char

/-! ## Characters and names -/

def inRanges (ranges : List (Nat × Nat)) (c : Char) : Bool :=
  ranges.any fun r => decide (r.1 ≤ c.toNat) && decide (c.toNat ≤ r.2)

/-- `Char`: what a document may hold. -/
def isXmlChar : Char → Bool :=
  inRanges [(0x9, 0xA), (0xD, 0xD), (0x20, 0xD7FF), (0xE000, 0xFFFD), (0x10000, 0x10FFFF)]

/-- `NameStartChar`. -/
def isNameStart : Char → Bool :=
  inRanges [(0x3A, 0x3A), (0x41, 0x5A), (0x5F, 0x5F), (0x61, 0x7A), (0xC0, 0xD6), (0xD8, 0xF6),
    (0xF8, 0x2FF), (0x370, 0x37D), (0x37F, 0x1FFF), (0x200C, 0x200D), (0x2070, 0x218F),
    (0x2C00, 0x2FEF), (0x3001, 0xD7FF), (0xF900, 0xFDCF), (0xFDF0, 0xFFFD), (0x10000, 0xEFFFF)]

/-- `NameChar`. -/
def isNameChar (c : Char) : Bool :=
  isNameStart c ||
    inRanges [(0x2D, 0x2E), (0x30, 0x39), (0xB7, 0xB7), (0x300, 0x36F), (0x203F, 0x2040)] c

/-- `NCName`: a name without a colon. -/
def isNCName (name : Text) : Bool :=
  name.head?.any isNameStart && name.all fun c => isNameChar c && decide (c ≠ ':')

def isSpace (c : Char) : Bool := decide (c = ' ' ∨ c = '\t' ∨ c = '\n' ∨ c = '\r')

/-- A qualified name: its prefix, where it has one, and its local part. -/
def qname (name : Text) : Option (Option Text × Text) :=
  if ':' ∈ name then
    let before := name.takeWhile (· ≠ ':')
    let behind := name.drop (before.length + 1)
    if isNCName before && isNCName behind then some (some before, behind) else none
  else if isNCName name then some (none, name) else none

/-! ## Elements -/

/-- A start tag. -/
structure Tag where
  name : Text
  attributes : List (Text × Text)

/-- What content is made of. -/
inductive Item where
  | element (tag : Tag) (children : List Item)
  | char (c : Char)
  deriving Inhabited

def XML_NAMESPACE : Text := "http://www.w3.org/XML/1998/namespace".toList

def XMLNS_NAMESPACE : Text := "http://www.w3.org/2000/xmlns/".toList

/-- The namespace a prefix stands for, below some tags. -/
def resolve (scope : List Tag) (name : Text) : Option Text :=
  if name = "xml".toList then some XML_NAMESPACE
  else scope.findSome? fun tag =>
    (tag.attributes.find? fun a => a.1 = "xmlns:".toList ++ name).map Prod.snd

/-- What an attribute of a tag may be; `xmlns` and its names declare, and bind no reserved
namespace. -/
def attributeSound (scope : List Tag) (a : Text × Text) : Bool :=
  match qname a.1 with
  | none => false
  | some (none, name) => decide (name = "xmlns".toList → a.2 ≠ XML_NAMESPACE ∧ a.2 ≠ XMLNS_NAMESPACE)
  | some (some before, name) =>
    if before = "xmlns".toList then
      decide (name ≠ "xmlns".toList ∧ a.2 ≠ [] ∧ a.2 ≠ XMLNS_NAMESPACE ∧
        (name = "xml".toList ↔ a.2 = XML_NAMESPACE))
    else (resolve scope before).isSome

/-- The name of an attribute with its namespace in place of its prefix. -/
def expanded (scope : List Tag) (a : Text × Text) : Option (Option Text × Text) :=
  (qname a.1).map fun (before, name) =>
    (before.bind fun before =>
      if before = "xmlns".toList then some XMLNS_NAMESPACE else resolve scope before, name)

/-- What a tag below some others may be. -/
def Tag.sound (scope : List Tag) (tag : Tag) : Bool :=
  (match qname tag.name with
    | none => false
    | some (none, _) => true
    | some (some before, _) =>
      decide (before ≠ "xmlns".toList) && (resolve (tag :: scope) before).isSome) &&
  tag.attributes.all (attributeSound (tag :: scope)) &&
  decide (tag.attributes.map (expanded (tag :: scope))).Nodup

/-! ## The reader -/

/-- Where a reader is. -/
inductive State where
  | content (brackets : Nat)
  | reference (name : Text)
  | less
  | startTag (name : Text)
  | space (tag : Tag)
  | attribute (tag : Tag) (name : Text)
  | equals (tag : Tag) (name : Text)
  | quote (tag : Tag) (name : Text)
  | value (tag : Tag) (name : Text) (mark : Char) (value : Text)
  | valueReference (tag : Tag) (name : Text) (mark : Char) (value : Text) (reference : Text)
  | behindValue (tag : Tag)
  | slash (tag : Tag)
  | endTag (name : Text)
  | endSpace (name : Text)

/-- A reader: where it is, the elements that are open with what they hold so far, and the element of
the document once it is closed. -/
structure Reader where
  state : State
  stack : List (Tag × List Item)
  root : Option Item

/-- The five predefined entities. -/
def predefined (name : Text) : Option Char :=
  if name = "amp".toList then some '&'
  else if name = "lt".toList then some '<'
  else if name = "gt".toList then some '>'
  else if name = "quot".toList then some '"'
  else if name = "apos".toList then some '\''
  else none

namespace Reader

/-- An item of the innermost element; outside of all, the element of the document. -/
def put (r : Reader) (item : Item) : Option Reader :=
  match r.stack with
  | (tag, items) :: below =>
    some { r with state := .content 0, stack := (tag, items ++ [item]) :: below }
  | [] => if r.root.isSome then none else some { r with state := .content 0, root := some item }

/-- A character of the text. -/
def character (r : Reader) (c : Char) (brackets : Nat) : Option Reader :=
  if r.stack.isEmpty then if isSpace c then some { r with state := .content 0 } else none
  else (r.put (.char c)).map fun r => { r with state := .content brackets }

/-- A start tag that is read. -/
def enter (r : Reader) (tag : Tag) : Option Reader :=
  if tag.sound (r.stack.map Prod.fst) && (!r.stack.isEmpty || r.root.isNone) then
    some { r with state := .content 0, stack := (tag, []) :: r.stack }
  else none

/-- An end tag that is read. -/
def close (r : Reader) (name : Text) : Option Reader :=
  match r.stack with
  | (tag, items) :: below =>
    if tag.name = name then { r with stack := below }.put (.element tag items) else none
  | [] => none

/-- What may come behind a name or a value in a start tag. -/
def behind (r : Reader) (tag : Tag) (c : Char) : Option Reader :=
  if isSpace c then some { r with state := .space tag }
  else if c = '/' then some { r with state := .slash tag }
  else if c = '>' then r.enter tag
  else none

/-- A character of a document. -/
def step (r : Reader) (c : Char) : Option Reader :=
  if isXmlChar c = false then none
  else
    match r.state with
    | .content brackets =>
      if c = '<' then some { r with state := .less }
      else if c = '&' then some { r with state := .reference [] }
      else if c = '>' ∧ brackets = 2 then none
      else r.character c (if c = ']' then min 2 (brackets + 1) else 0)
    | .reference name =>
      if c = ';' then if r.stack.isEmpty then none else (predefined name).bind (r.character · 0)
      else some { r with state := .reference (name ++ [c]) }
    | .less =>
      if c = '/' then some { r with state := .endTag [] }
      else if isNameStart c then some { r with state := .startTag [c] }
      else none
    | .startTag name =>
      if isNameChar c then some { r with state := .startTag (name ++ [c]) }
      else r.behind ⟨name, []⟩ c
    | .space tag =>
      if isNameStart c then some { r with state := .attribute tag [c] } else r.behind tag c
    | .attribute tag name =>
      if isNameChar c then some { r with state := .attribute tag (name ++ [c]) }
      else if c = '=' then some { r with state := .quote tag name }
      else if isSpace c then some { r with state := .equals tag name }
      else none
    | .equals tag name =>
      if c = '=' then some { r with state := .quote tag name }
      else if isSpace c then some r
      else none
    | .quote tag name =>
      if c = '"' ∨ c = '\'' then some { r with state := .value tag name c [] }
      else if isSpace c then some r
      else none
    | .value tag name mark value =>
      if c = mark then
        some { r with state := .behindValue ⟨tag.name, tag.attributes ++ [(name, value)]⟩ }
      else if c = '<' then none
      else if c = '&' then some { r with state := .valueReference tag name mark value [] }
      else some { r with state := .value tag name mark (value ++ [if isSpace c then ' ' else c]) }
    | .valueReference tag name mark value reference =>
      if c = ';' then
        (predefined reference).map fun c => { r with state := .value tag name mark (value ++ [c]) }
      else some { r with state := .valueReference tag name mark value (reference ++ [c]) }
    | .behindValue tag => r.behind tag c
    | .slash tag =>
      if c = '>' then (r.enter tag).bind fun r => r.close tag.name else none
    | .endTag name =>
      if isNameChar c then some { r with state := .endTag (name ++ [c]) }
      else if isSpace c then some { r with state := .endSpace name }
      else if c = '>' then r.close name
      else none
    | .endSpace name =>
      if isSpace c then some r else if c = '>' then r.close name else none

/-- Some characters of a document. -/
def run (r : Reader) (text : Text) : Option Reader := text.foldlM step r

end Reader

/-- The declaration a document may start with. -/
def DECLARATION : Text := "<?xml version=\"1.0\" encoding=\"utf-8\"?>".toList

/-- The element a document is, where it is well-formed. -/
def read (document : Text) : Option Item :=
  let text := if DECLARATION <+: document then document.drop DECLARATION.length else document
  match (⟨.content 0, [], none⟩ : Reader).run text with
  | some ⟨.content _, [], root⟩ => root
  | _ => none

variable {r : Reader} {text rest : Text} {c : Char} {name : Text} {tag : Tag}

/-! ## Runs -/

namespace Reader

@[simp] theorem run_nil : r.run [] = some r := rfl

@[simp] theorem run_cons : r.run (c :: text) = (r.step c).bind fun r => r.run text := rfl

theorem run_append (r : Reader) (a b : Text) : r.run (a ++ b) = (r.run a).bind fun r => r.run b := by
  unfold run
  rw [List.foldlM_append]
  rfl

end Reader

theorem inRanges_mono {small large : List (Nat × Nat)}
    (h : ∀ a ∈ small, ∃ b ∈ large, b.1 ≤ a.1 ∧ a.2 ≤ b.2) (hc : inRanges small c = true) :
    inRanges large c = true := by
  obtain ⟨a, ha, hin⟩ := List.any_eq_true.mp hc
  obtain ⟨b, hb, hlow, hhigh⟩ := h a ha
  simp only [Bool.and_eq_true, decide_eq_true_eq] at hin
  refine List.any_eq_true.mpr ⟨b, hb, ?_⟩
  simp only [Bool.and_eq_true, decide_eq_true_eq]
  omega

theorem xmlChar_of_nameStart (h : isNameStart c = true) : isXmlChar c = true :=
  inRanges_mono (by decide) h

theorem xmlChar_of_nameChar (h : isNameChar c = true) : isXmlChar c = true := by
  rcases Bool.or_eq_true_iff.mp h with h | h
  · exact xmlChar_of_nameStart h
  · exact inRanges_mono (by decide) h

/-! ## Names -/

theorem ncName_colon (h : isNCName name = true) : ':' ∉ name := fun hmem => by
  have hall := (Bool.and_eq_true_iff.mp h).2
  have hc := List.all_eq_true.mp hall _ hmem
  simp at hc

theorem ncName_chars (h : isNCName name = true) : ∀ c ∈ name, isNameChar c = true := fun c hc =>
  (Bool.and_eq_true_iff.mp (List.all_eq_true.mp (Bool.and_eq_true_iff.mp h).2 c hc)).1

/-- A name with a colon is qualified where both its parts are names. -/
theorem qname_colon {before : Text} (h : ':' ∉ before) (name : Text) :
    qname (before ++ ':' :: name) =
      if isNCName before && isNCName name then some (some before, name) else none := by
  have htake : (before ++ ':' :: name).takeWhile (· ≠ ':') = before := by
    have hall : ∀ c ∈ before, decide (c ≠ ':') = true := fun c hc =>
      decide_eq_true fun e => h (e ▸ hc)
    rw [List.takeWhile_append_of_pos hall]
    simp
  have hdrop : (before ++ ':' :: name).drop (before.length + 1) = name := by
    rw [List.drop_append, List.drop_of_length_le (by omega)]
    simp
  rw [qname, if_pos (List.mem_append_right _ List.mem_cons_self)]
  dsimp only
  rw [htake, hdrop]

theorem qname_plain (h : ':' ∉ name) :
    qname name = if isNCName name then some (none, name) else none := by
  rw [qname, if_neg h]

theorem resolve_cons {scope : List Tag} {before : Text} (h : (resolve scope before).isSome = true)
    (tag : Tag) : (resolve (tag :: scope) before).isSome = true := by
  unfold resolve at *
  split_ifs at * with hxml
  · rfl
  · rw [List.findSome?_cons]
    split
    · rfl
    · exact h

/-- A tag with a prefix that is declared and no attributes. -/
theorem sound_qualified {scope : List Tag} {before : Text} (hbefore : isNCName before = true)
    (hxmlns : before ≠ "xmlns".toList) (hname : isNCName name = true)
    (h : (resolve scope before).isSome = true) :
    Tag.sound scope ⟨before ++ ':' :: name, []⟩ = true := by
  unfold Tag.sound
  dsimp only
  rw [qname_colon (ncName_colon hbefore), hbefore, hname]
  have hne : before ≠ ['x', 'm', 'l', 'n', 's'] := hxmlns
  simp [resolve_cons h, hne]

/-! ## Tags -/

namespace Reader

/-- A reader between two pieces of markup. -/
abbrev within (brackets : Nat) (stack : List (Tag × List Item)) (root : Option Item) : Reader :=
  ⟨.content brackets, stack, root⟩

variable {brackets : Nat} {stack : List (Tag × List Item)} {root : Option Item}

theorem step_less : (within brackets stack root).step '<' = some ⟨.less, stack, root⟩ := rfl

/-- A state that gathers the characters of a name gathers the name. -/
theorem run_gathered {state : Text → State} {before : Text}
    (hstep : ∀ {before c}, isNameChar c = true → (⟨state before, stack, root⟩ : Reader).step c =
      some ⟨state (before ++ [c]), stack, root⟩)
    (h : ∀ c ∈ name, isNameChar c = true) (rest : Text) :
    (⟨state before, stack, root⟩ : Reader).run (name ++ rest) =
      (⟨state (before ++ name), stack, root⟩ : Reader).run rest := by
  induction name generalizing before with
  | nil => rw [List.nil_append, List.append_nil]
  | cons c name ih =>
    obtain ⟨hc, hname⟩ := List.forall_mem_cons.mp h
    rw [List.cons_append, run_cons, hstep hc, Option.bind_some, ih hname, List.append_assoc]
    rfl

theorem run_startTag {before : Text} (h : ∀ c ∈ name, isNameChar c = true) (rest : Text) :
    (⟨.startTag before, stack, root⟩ : Reader).run (name ++ rest) =
      (⟨.startTag (before ++ name), stack, root⟩ : Reader).run rest :=
  run_gathered (fun hc => by simp [step, xmlChar_of_nameChar hc, hc]) h rest

/-- A name behind an opening bracket. -/
theorem run_name {first : Char} (hfirst : isNameStart first = true)
    (h : ∀ c ∈ name, isNameChar c = true) (rest : Text) :
    (⟨.less, stack, root⟩ : Reader).run (first :: name ++ rest) =
      (⟨.startTag (first :: name), stack, root⟩ : Reader).run rest := by
  have hslash : first ≠ '/' := fun e => by
    rw [e] at hfirst
    exact absurd hfirst (by decide)
  have hstep : (⟨.less, stack, root⟩ : Reader).step first =
      some ⟨.startTag [first], stack, root⟩ := by
    simp [step, xmlChar_of_nameStart hfirst, hfirst, hslash]
  rw [List.cons_append, run_cons, hstep, Option.bind_some, run_startTag h]
  rfl

theorem run_endTag {before : Text} (h : ∀ c ∈ name, isNameChar c = true) (rest : Text) :
    (⟨.endTag before, stack, root⟩ : Reader).run (name ++ rest) =
      (⟨.endTag (before ++ name), stack, root⟩ : Reader).run rest :=
  run_gathered (fun hc => by simp [step, xmlChar_of_nameChar hc, hc]) h rest

/-- What is open, where an element is closed in it. -/
theorem put_within (state : State) (items : List Item) (item : Item) :
    (⟨state, (tag, items) :: stack, root⟩ : Reader).put item =
      some (within 0 ((tag, items ++ [item]) :: stack) root) := rfl

theorem step_close (items : List Item) :
    (⟨.endTag tag.name, (tag, items) :: stack, root⟩ : Reader).step '>' =
      (⟨.endTag tag.name, stack, root⟩ : Reader).put (.element tag items) := by
  simp [step, close, isXmlChar, isNameChar, isNameStart, inRanges, isSpace]

/-- The end of an empty element. -/
theorem step_slash (outer : Tag) (items : List Item) :
    (⟨.slash tag, (outer, items) :: stack, root⟩ : Reader).step '>' =
      if tag.sound (outer :: stack.map Prod.fst) then
        some (within 0 ((outer, items ++ [.element tag []]) :: stack) root)
      else none := by
  have hxml : isXmlChar '>' = true := by decide
  simp only [step, hxml, Bool.true_eq_false, if_false, if_true, enter, List.map_cons,
    List.isEmpty_cons, Bool.not_false, Bool.true_or, Bool.and_true]
  split_ifs
  · simp only [Option.bind_some, close, if_true, put]
  · rfl

end Reader

/-- `<name>`. -/
def openTag (name : Text) : Text := '<' :: name ++ ['>']

/-- `</name>`. -/
def closeTag (name : Text) : Text := '<' :: '/' :: name ++ ['>']

/-- `<name/>`. -/
def emptyTag (name : Text) : Text := '<' :: name ++ ['/', '>']

/-- A qualified name starts as a name does, and goes on as one. -/
theorem qualified_chars {before : Text} (hbefore : isNCName before = true)
    (hname : ∀ c ∈ name, isNameChar c = true) : ∃ first tail, before ++ ':' :: name = first :: tail ∧
      isNameStart first = true ∧ ∀ c ∈ tail, isNameChar c = true := by
  cases before with
  | nil => cases hbefore
  | cons first tail =>
    refine ⟨first, tail ++ ':' :: name, rfl, ?_, fun c hc => ?_⟩
    · simpa using (Bool.and_eq_true_iff.mp hbefore).1
    · rcases List.mem_append.mp hc with hc | hc
      · exact ncName_chars hbefore c (List.mem_cons_of_mem _ hc)
      · rcases List.mem_cons.mp hc with rfl | hc
        · decide
        · exact hname c hc

section

variable {brackets : Nat} {stack : List (Tag × List Item)} {root : Option Item} {before : Text}
  {outer : Tag} {items inner : List Item}

/-- A qualified name behind an opening bracket. -/
theorem run_qualified (hbefore : isNCName before = true) (hname : ∀ c ∈ name, isNameChar c = true)
    (rest : Text) :
    (Reader.within brackets stack root).run ('<' :: (before ++ ':' :: name) ++ rest) =
      (⟨.startTag (before ++ ':' :: name), stack, root⟩ : Reader).run rest := by
  obtain ⟨first, tail, heq, hfirst, htail⟩ := qualified_chars hbefore hname
  rw [List.cons_append, Reader.run_cons, Reader.step_less, Option.bind_some, heq,
    Reader.run_name hfirst htail]

theorem run_openTag (hbefore : isNCName before = true) (hname : isNCName name = true)
    (hsound : Tag.sound (outer :: stack.map Prod.fst) ⟨before ++ ':' :: name, []⟩ = true) :
    (Reader.within brackets ((outer, items) :: stack) root).run
        (openTag (before ++ ':' :: name)) =
      some (Reader.within 0 ((⟨before ++ ':' :: name, []⟩, []) :: (outer, items) :: stack)
        root) := by
  rw [openTag, run_qualified hbefore (ncName_chars hname), Reader.run_cons]
  simp [Reader.step, Reader.behind, Reader.enter, isXmlChar, isNameChar, isNameStart, inRanges,
    isSpace, hsound]

theorem run_emptyTag (hbefore : isNCName before = true) (hname : isNCName name = true)
    (hsound : Tag.sound (outer :: stack.map Prod.fst) ⟨before ++ ':' :: name, []⟩ = true) :
    (Reader.within brackets ((outer, items) :: stack) root).run
        (emptyTag (before ++ ':' :: name)) =
      some (Reader.within 0 ((outer, items ++ [.element ⟨before ++ ':' :: name, []⟩ []]) :: stack)
        root) := by
  have hslash : (⟨.startTag (before ++ ':' :: name), (outer, items) :: stack, root⟩ : Reader).step
      '/' = some ⟨.slash ⟨before ++ ':' :: name, []⟩, (outer, items) :: stack, root⟩ := by
    simp [Reader.step, Reader.behind, isXmlChar, isNameChar, isNameStart, inRanges, isSpace]
  rw [emptyTag, run_qualified hbefore (ncName_chars hname), Reader.run_cons, hslash,
    Option.bind_some, Reader.run_cons, Reader.step_slash, if_pos hsound]
  rfl

theorem run_closeTag (hname : ∀ c ∈ tag.name, isNameChar c = true) :
    (Reader.within brackets ((tag, inner) :: (outer, items) :: stack) root).run
        (closeTag tag.name) =
      some (Reader.within 0 ((outer, items ++ [.element tag inner]) :: stack) root) := by
  have hslash : (⟨.less, (tag, inner) :: (outer, items) :: stack, root⟩ : Reader).step '/' =
      some ⟨.endTag [], (tag, inner) :: (outer, items) :: stack, root⟩ := by
    simp [Reader.step, isXmlChar, inRanges]
  rw [closeTag, List.cons_append, Reader.run_cons, Reader.step_less, Option.bind_some,
    List.cons_append, Reader.run_cons, hslash, Option.bind_some, Reader.run_endTag hname,
    List.nil_append, Reader.run_cons, Reader.step_close, Reader.put_within]
  rfl

end

/-! ## Content -/

/-- What a text comes to as content below tags that declare a prefix: some items behind those there
are, or nothing a document could have. -/
def Yields (before text : Text) (outcome : Option (List Item)) : Prop :=
  ∀ brackets tag items below root,
    (resolve (tag :: below.map Prod.fst) before).isSome = true →
      ∃ brackets', (Reader.within brackets ((tag, items) :: below) root).run text =
        outcome.map fun added => Reader.within brackets' ((tag, items ++ added) :: below) root

variable {before a b : Text} {left right : Option (List Item)}

theorem yields_nil : Yields before [] (some []) := fun brackets tag items below root _ =>
  ⟨brackets, by rw [Option.map_some, List.append_nil]; rfl⟩

/-- **Content is read part by part.** -/
theorem yields_append (ha : Yields before a left) (hb : Yields before b right) :
    Yields before (a ++ b) (left.bind fun x => right.map (x ++ ·)) := by
  intro brackets tag items below root hscope
  obtain ⟨brackets', hleft⟩ := ha brackets tag items below root hscope
  rw [Reader.run_append, hleft]
  cases left with
  | none => exact ⟨0, rfl⟩
  | some x =>
    obtain ⟨brackets'', hright⟩ := hb brackets' tag (items ++ x) below root hscope
    refine ⟨brackets'', ?_⟩
    rw [Option.map_some, Option.bind_some, Option.bind_some, hright]
    cases right with
    | none => rfl
    | some y => rw [Option.map_some, Option.map_some, Option.map_some, List.append_assoc]

/-- What ends the reading ends it whatever is behind. -/
theorem yields_none (ha : Yields before a none) (b : Text) : Yields before (a ++ b) none := by
  intro brackets tag items below root hscope
  obtain ⟨brackets', hnone⟩ := ha brackets tag items below root hscope
  refine ⟨brackets', ?_⟩
  rw [Reader.run_append, hnone]
  rfl

/-- What some parts come to together. -/
def collect {α : Type} : List (Option (List α)) → Option (List α)
  | [] => some []
  | outcome :: outcomes => outcome.bind fun x => (collect outcomes).map (x ++ ·)

theorem collect_some {α β : Type} {parts : List β} {g : β → Option (List α)} {k : β → List α}
    (h : ∀ a ∈ parts, g a = some (k a)) : collect (parts.map g) = some (parts.flatMap k) := by
  induction parts with
  | nil => rfl
  | cons a parts ih =>
    obtain ⟨ha, hparts⟩ := List.forall_mem_cons.mp h
    rw [List.map_cons, collect, ha, ih hparts]
    rfl

theorem collect_none {α β : Type} {parts : List β} {g : β → Option (List α)} {a : β}
    (ha : a ∈ parts) (h : g a = none) : collect (parts.map g) = none := by
  induction parts with
  | nil => cases ha
  | cons b parts ih =>
    rw [List.map_cons, collect]
    rcases List.mem_cons.mp ha with rfl | ha
    · rw [h]
      rfl
    · rw [ih ha]
      cases g b <;> rfl

/-- Characters that each are kept or end it all. -/
theorem collect_chars {α : Type} (p : Char → Bool) (f : Char → α) (s : Text) :
    collect (s.map fun c => if p c then some [f c] else none) =
      if s.all p then some (s.map f) else none := by
  induction s with
  | nil => rfl
  | cons c s ih =>
    rw [List.map_cons, collect, ih, List.all_cons]
    cases p c with
    | false => rfl
    | true =>
      cases s.all p with
      | false => rfl
      | true => rfl

theorem yields_flatMap {β : Type} {parts : List β} {f : β → Text} {g : β → Option (List Item)}
    (h : ∀ a ∈ parts, Yields before (f a) (g a)) :
    Yields before (parts.flatMap f) (collect (parts.map g)) := by
  induction parts with
  | nil => exact yields_nil
  | cons a parts ih =>
    obtain ⟨ha, hparts⟩ := List.forall_mem_cons.mp h
    exact yields_append ha (ih hparts)

/-- An element with what it holds. -/
theorem yields_element (hbefore : isNCName before = true) (hxmlns : before ≠ "xmlns".toList)
    (hname : isNCName name = true) (h : Yields before text left) :
    Yields before (openTag (before ++ ':' :: name) ++ text ++ closeTag (before ++ ':' :: name))
      (left.map fun items => [.element ⟨before ++ ':' :: name, []⟩ items]) := by
  intro brackets tag items below root hscope
  obtain ⟨brackets', hinner⟩ := h 0 ⟨before ++ ':' :: name, []⟩ [] ((tag, items) :: below) root
    (resolve_cons hscope _)
  refine ⟨0, ?_⟩
  rw [List.append_assoc, Reader.run_append, run_openTag hbefore hname
    (sound_qualified hbefore hxmlns hname hscope), Option.bind_some, Reader.run_append, hinner]
  cases left with
  | none => rfl
  | some inner =>
    obtain ⟨first, tail, heq, hfirst, htail⟩ := qualified_chars hbefore (ncName_chars hname)
    have hchars : ∀ c ∈ before ++ ':' :: name, isNameChar c = true := by
      rw [heq]
      exact List.forall_mem_cons.mpr ⟨Bool.or_eq_true_iff.mpr (Or.inl hfirst), htail⟩
    rw [Option.map_some, Option.bind_some, List.nil_append]
    exact @run_closeTag ⟨before ++ ':' :: name, []⟩ _ _ _ _ _ _ hchars

theorem yields_empty (hbefore : isNCName before = true) (hxmlns : before ≠ "xmlns".toList)
    (hname : isNCName name = true) :
    Yields before (emptyTag (before ++ ':' :: name))
      (some [.element ⟨before ++ ':' :: name, []⟩ []]) :=
  fun _ _ _ _ _ hscope => ⟨0, run_emptyTag hbefore hname
    (sound_qualified hbefore hxmlns hname hscope)⟩

/-- A character no document has ends the reading. -/
theorem yields_bad (h : isXmlChar c = false) : Yields before [c] none := by
  intro brackets tag items below root _
  refine ⟨0, ?_⟩
  rw [Reader.run_cons, Reader.step, if_pos h]
  rfl

/-- A character that means nothing stands for itself. -/
theorem yields_char (h : isXmlChar c = true) (hless : c ≠ '<') (hamp : c ≠ '&') (hmore : c ≠ '>') :
    Yields before [c] (some [.char c]) := by
  intro brackets tag items below root _
  refine ⟨if c = ']' then min 2 (brackets + 1) else 0, ?_⟩
  simp [Reader.step, Reader.character, Reader.put, h, hless, hamp, hmore]

theorem run_reference {stack : List (Tag × List Item)} {root : Option Item}
    (h : ∀ d ∈ name, d ≠ ';' ∧ isXmlChar d = true) (before rest : Text) :
    (⟨.reference before, stack, root⟩ : Reader).run (name ++ rest) =
      (⟨.reference (before ++ name), stack, root⟩ : Reader).run rest := by
  induction name generalizing before with
  | nil => rw [List.nil_append, List.append_nil]
  | cons d name ih =>
    obtain ⟨⟨hne, hd⟩, hname⟩ := List.forall_mem_cons.mp h
    have hstep : (⟨.reference before, stack, root⟩ : Reader).step d =
        some ⟨.reference (before ++ [d]), stack, root⟩ := by
      simp [Reader.step, hd, hne]
    rw [List.cons_append, Reader.run_cons, hstep, Option.bind_some, ih hname, List.append_assoc]
    rfl

/-- A reference stands for its character. -/
theorem yields_reference (h : ∀ d ∈ name, d ≠ ';' ∧ isXmlChar d = true)
    (hc : predefined name = some c) : Yields before ('&' :: name ++ [';']) (some [.char c]) := by
  intro brackets tag items below root _
  refine ⟨0, ?_⟩
  have hamp : (Reader.within brackets ((tag, items) :: below) root).step '&' =
      some ⟨.reference [], (tag, items) :: below, root⟩ := by
    simp [Reader.step, isXmlChar, inRanges]
  rw [List.cons_append, Reader.run_cons, hamp, Option.bind_some, run_reference h, List.nil_append,
    Reader.run_cons]
  simp [Reader.step, isXmlChar, inRanges, hc, Reader.character, Reader.put]

/-! ## Values of attributes -/

/-- What a text comes to between double quotes. -/
def Means (text : Text) (outcome : Option Text) : Prop :=
  ∀ tag name value stack root,
    (⟨.value tag name '"' value, stack, root⟩ : Reader).run text =
      outcome.map fun more => ⟨.value tag name '"' (value ++ more), stack, root⟩

variable {x y : Option Text}

theorem means_nil : Means [] (some []) := fun tag name value stack root => by
  rw [Option.map_some, List.append_nil]
  rfl

theorem means_append (ha : Means a x) (hb : Means b y) :
    Means (a ++ b) (x.bind fun u => y.map (u ++ ·)) := by
  intro tag name value stack root
  rw [Reader.run_append, ha]
  cases x with
  | none => rfl
  | some u =>
    rw [Option.map_some, Option.bind_some, hb, Option.bind_some, Option.map_map]
    cases y with
    | none => rfl
    | some v => rw [Option.map_some, Option.map_some, Function.comp_apply, List.append_assoc]

theorem means_flatMap {β : Type} {parts : List β} {f : β → Text} {g : β → Option Text}
    (h : ∀ a ∈ parts, Means (f a) (g a)) : Means (parts.flatMap f) (collect (parts.map g)) := by
  induction parts with
  | nil => exact means_nil
  | cons a parts ih =>
    obtain ⟨ha, hparts⟩ := List.forall_mem_cons.mp h
    exact means_append ha (ih hparts)

theorem means_bad (h : isXmlChar c = false) : Means [c] none := by
  intro tag name value stack root
  rw [Reader.run_cons, Reader.step, if_pos h]
  rfl

theorem means_char (h : isXmlChar c = true) (hquote : c ≠ '"') (hless : c ≠ '<') (hamp : c ≠ '&') :
    Means [c] (some [if isSpace c then ' ' else c]) := by
  intro tag name value stack root
  simp [Reader.step, h, hquote, hless, hamp]

theorem run_valueReference {stack : List (Tag × List Item)} {root : Option Item} {n v : Text}
    (h : ∀ d ∈ name, d ≠ ';' ∧ isXmlChar d = true) (before rest : Text) :
    (⟨.valueReference tag n '"' v before, stack, root⟩ : Reader).run (name ++ rest) =
      (⟨.valueReference tag n '"' v (before ++ name), stack, root⟩ : Reader).run rest := by
  induction name generalizing before with
  | nil => rw [List.nil_append, List.append_nil]
  | cons d name ih =>
    obtain ⟨⟨hne, hd⟩, hname⟩ := List.forall_mem_cons.mp h
    have hstep : (⟨.valueReference tag n '"' v before, stack, root⟩ : Reader).step d =
        some ⟨.valueReference tag n '"' v (before ++ [d]), stack, root⟩ := by
      simp [Reader.step, hd, hne]
    rw [List.cons_append, Reader.run_cons, hstep, Option.bind_some, ih hname, List.append_assoc]
    rfl

theorem means_reference (h : ∀ d ∈ name, d ≠ ';' ∧ isXmlChar d = true)
    (hc : predefined name = some c) : Means ('&' :: name ++ [';']) (some [c]) := by
  intro tag n value stack root
  have hamp : (⟨.value tag n '"' value, stack, root⟩ : Reader).step '&' =
      some ⟨.valueReference tag n '"' value [], stack, root⟩ := by
    simp [Reader.step, isXmlChar, inRanges]
  rw [List.cons_append, Reader.run_cons, hamp, Option.bind_some, run_valueReference h,
    List.nil_append, Reader.run_cons]
  simp [Reader.step, isXmlChar, inRanges, hc]

/-! ## Names that may be none -/

/-- A character that may end a name or split it. -/
def separates (c : Char) : Bool := isSpace c || decide (c ∈ ['/', '>', ':'])

section

variable {stack : List (Tag × List Item)} {root : Option Item} {value : Text}

theorem run_notName (h : ∀ c ∈ name, separates c = false) (hbad : ∃ c ∈ name, isNameChar c = false)
    (before rest : Text) :
    (⟨.startTag before, stack, root⟩ : Reader).run (name ++ rest) = none := by
  induction name generalizing before with
  | nil => exact absurd hbad (by simp)
  | cons c name ih =>
    obtain ⟨hc, hname⟩ := List.forall_mem_cons.mp h
    rw [List.cons_append, Reader.run_cons]
    cases hchar : isNameChar c with
    | false =>
      have hstep : (⟨.startTag before, stack, root⟩ : Reader).step c = none := by
        obtain ⟨hspace, hmark⟩ := Bool.or_eq_false_iff.mp hc
        simp only [List.mem_cons, List.not_mem_nil, or_false, decide_eq_false_iff_not,
          not_or] at hmark
        simp [Reader.step, Reader.behind, hchar, hspace, hmark]
      rw [hstep]
      rfl
    | true =>
      obtain ⟨d, hd, hbad⟩ := hbad
      have hrest : ∃ c ∈ name, isNameChar c = false := by
        rcases List.mem_cons.mp hd with rfl | hd
        · rw [hchar] at hbad
          cases hbad
        · exact ⟨d, hd, hbad⟩
      have hstep : (⟨.startTag before, stack, root⟩ : Reader).step c =
          some ⟨.startTag (before ++ [c]), stack, root⟩ := by
        simp [Reader.step, xmlChar_of_nameChar hchar, hchar]
      rw [hstep, Option.bind_some, ih hname hrest]

theorem ncName_false (hbad : ∃ c ∈ name, isNameChar c = false) : isNCName name = false := by
  obtain ⟨c, hc, hbad⟩ := hbad
  cases h : isNCName name with
  | false => rfl
  | true =>
    rw [ncName_chars h c hc] at hbad
    cases hbad

theorem separates_colon (h : ∀ c ∈ name, separates c = false) : ':' ∉ name := fun hmem =>
  absurd (h _ hmem) (by decide)

/-- A name that is one, of characters a name may have and a first that starts one. -/
theorem ncName_of_chars {first : Char} (hfirst : isNameStart first = true)
    (hname : ∀ c ∈ name, isNameChar c = true) (hcolon : ':' ∉ first :: name) :
    isNCName (first :: name) = true := by
  refine Bool.and_eq_true_iff.mpr ⟨hfirst, List.all_eq_true.mpr fun c hc => ?_⟩
  refine Bool.and_eq_true_iff.mpr ⟨?_, decide_eq_true fun e => hcolon (e ▸ hc)⟩
  rcases List.mem_cons.mp hc with rfl | hc
  · exact Bool.or_eq_true_iff.mpr (Or.inl hfirst)
  · exact hname c hc

/-- The end of an empty element, right behind its name. -/
theorem run_bareEnd {outer : Tag} {items : List Item} :
    (⟨.startTag name, (outer, items) :: stack, root⟩ : Reader).run ['/', '>'] =
      if Tag.sound (outer :: stack.map Prod.fst) ⟨name, []⟩ then
        some (Reader.within 0 ((outer, items ++ [.element ⟨name, []⟩ []]) :: stack) root)
      else none := by
  have hslash : (⟨.startTag name, (outer, items) :: stack, root⟩ : Reader).step '/' =
      some ⟨.slash ⟨name, []⟩, (outer, items) :: stack, root⟩ := by
    simp [Reader.step, Reader.behind, isXmlChar, isNameChar, isNameStart, inRanges, isSpace]
  rw [Reader.run_cons, hslash, Option.bind_some, Reader.run_cons, Reader.step_slash]
  split_ifs <;> rfl

/-- An empty element without a prefix, where its name may be none. -/
theorem yields_bare (hne : name ≠ []) (h : ∀ c ∈ name, separates c = false) :
    Yields before (emptyTag name)
      (if isNCName name then some [.element ⟨name, []⟩ []] else none) := by
  intro brackets tag items below root _
  obtain ⟨first, rest, rfl⟩ := List.exists_cons_of_ne_nil hne
  have hless : (Reader.within brackets ((tag, items) :: below) root).run
      (emptyTag (first :: rest)) =
        (⟨.less, (tag, items) :: below, root⟩ : Reader).run (first :: rest ++ ['/', '>']) := by
    rw [emptyTag, List.cons_append, Reader.run_cons, Reader.step_less, Option.bind_some]
  rw [hless]
  cases hfirst : isNameStart first with
  | false =>
    have hslash : first ≠ '/' := fun e =>
      absurd (h first List.mem_cons_self) (by rw [e]; decide)
    have hstep : (⟨.less, (tag, items) :: below, root⟩ : Reader).step first = none := by
      simp [Reader.step, hfirst, hslash]
    have hnone : isNCName (first :: rest) = false := by simp [isNCName, hfirst]
    rw [hnone, List.cons_append, Reader.run_cons, hstep]
    exact ⟨0, rfl⟩
  | true =>
    by_cases hbad : ∃ c ∈ rest, isNameChar c = false
    · have hstep : (⟨.less, (tag, items) :: below, root⟩ : Reader).step first =
          some ⟨.startTag [first], (tag, items) :: below, root⟩ := by
        have hslash : first ≠ '/' := fun e =>
          absurd (h first List.mem_cons_self) (by rw [e]; decide)
        simp [Reader.step, xmlChar_of_nameStart hfirst, hfirst, hslash]
      have hnone : isNCName (first :: rest) = false :=
        ncName_false (hbad.imp fun c hc => ⟨List.mem_cons_of_mem _ hc.1, hc.2⟩)
      rw [hnone, List.cons_append, Reader.run_cons, hstep, Option.bind_some,
        run_notName (fun c hc => h c (List.mem_cons_of_mem _ hc)) hbad]
      exact ⟨0, rfl⟩
    · have hrest : ∀ c ∈ rest, isNameChar c = true := fun c hc => by
        by_contra hnot
        exact hbad ⟨c, hc, Bool.eq_false_iff.mpr hnot⟩
      have hname := ncName_of_chars hfirst hrest (separates_colon h)
      have hsound : Tag.sound (tag :: below.map Prod.fst) ⟨first :: rest, []⟩ = true := by
        unfold Tag.sound
        dsimp only
        rw [qname_plain (separates_colon h), if_pos hname]
        simp
      rw [Reader.run_name hfirst hrest, run_bareEnd, if_pos hsound, if_pos hname]
      exact ⟨0, rfl⟩

/-- Where a namespace may be bound to a prefix of one's own. -/
def Bindable (namespaceName : Text) : Prop :=
  namespaceName ≠ [] ∧ namespaceName ≠ XML_NAMESPACE ∧ namespaceName ≠ XMLNS_NAMESPACE

instance (namespaceName : Text) : Decidable (Bindable namespaceName) :=
  inferInstanceAs (Decidable (_ ∧ _))

/-- An attribute that declares a prefix of one's own. -/
theorem attributeSound_declaring {own : Text} (hown : isNCName own = true)
    (hxml : own ≠ "xml".toList) (hxmlns : own ≠ "xmlns".toList) (scope : List Tag) (value : Text) :
    attributeSound scope ("xmlns:".toList ++ own, value) = decide (Bindable value) := by
  have hdeclared : qname ("xmlns:".toList ++ own) = some (some "xmlns".toList, own) := by
    have hsplit : "xmlns:".toList ++ own = "xmlns".toList ++ ':' :: own := rfl
    have hncname : isNCName "xmlns".toList = true := by decide
    rw [hsplit, qname_colon (by decide), hown, hncname]
    rfl
  unfold attributeSound
  dsimp only
  rw [hdeclared]
  dsimp only
  rw [if_pos rfl]
  refine decide_eq_decide.mpr ⟨?_, ?_⟩
  · rintro ⟨-, hne, hown, hiff⟩
    exact ⟨hne, fun heq => hxml (hiff.mpr heq), hown⟩
  · rintro ⟨hne, hone, hother⟩
    exact ⟨hxmlns, hne, hother, iff_of_false hxml hone⟩

theorem resolve_declaring {own n : Text} (hxml : own ≠ "xml".toList) (scope : List Tag)
    (value : Text) :
    resolve (⟨n, [("xmlns:".toList ++ own, value)]⟩ :: scope) own = some value := by
  have hfind : [("xmlns:".toList ++ own, value)].find?
      (fun a => decide (a.1 = "xmlns:".toList ++ own)) = some ("xmlns:".toList ++ own, value) :=
    List.find?_cons_of_pos (decide_eq_true rfl)
  rw [resolve, if_neg hxml, List.findSome?_cons]
  dsimp only
  rw [hfind]
  rfl

/-- A tag that declares its own prefix. -/
theorem sound_declaring {scope : List Tag} {own : Text} (hown : isNCName own = true)
    (hxml : own ≠ "xml".toList) (hxmlns : own ≠ "xmlns".toList) (value : Text) :
    Tag.sound scope ⟨own ++ ':' :: name, [("xmlns:".toList ++ own, value)]⟩ =
      (isNCName name && decide (Bindable value)) := by
  unfold Tag.sound
  dsimp only
  rw [qname_colon (ncName_colon hown), hown, List.all_cons, List.all_nil,
    attributeSound_declaring hown hxml hxmlns, List.map_cons, List.map_nil, Bool.and_true]
  have hnodup (e : Option (Option Text × Text)) : decide ([e].Nodup) = true :=
    decide_eq_true (List.nodup_singleton e)
  rw [hnodup, Bool.and_true]
  cases isNCName name with
  | false => rfl
  | true =>
    rw [Bool.and_self, if_pos rfl]
    dsimp only
    rw [resolve_declaring hxml, decide_eq_true hxmlns]
    rfl

theorem run_attribute {n : Text} (h : ∀ c ∈ name, isNameChar c = true) (rest : Text) :
    (⟨.attribute tag n, stack, root⟩ : Reader).run (name ++ rest) =
      (⟨.attribute tag (n ++ name), stack, root⟩ : Reader).run rest := by
  induction name generalizing n with
  | nil => rw [List.nil_append, List.append_nil]
  | cons c name ih =>
    obtain ⟨hc, hname⟩ := List.forall_mem_cons.mp h
    have hstep : (⟨.attribute tag n, stack, root⟩ : Reader).step c =
        some ⟨.attribute tag (n ++ [c]), stack, root⟩ := by
      simp [Reader.step, xmlChar_of_nameChar hc, hc]
    rw [List.cons_append, Reader.run_cons, hstep, Option.bind_some, ih hname, List.append_assoc]
    rfl

/-- What declares a prefix, up to its value. -/
def declares (own : Text) : Text := " xmlns:".toList ++ own ++ "=\"".toList

theorem run_declares {own : Text} (hown : isNCName own = true) (rest : Text) :
    (⟨.startTag name, stack, root⟩ : Reader).run (declares own ++ rest) =
      (⟨.value ⟨name, []⟩ ("xmlns:".toList ++ own) '"' [], stack, root⟩ : Reader).run rest := by
  have hstart : (⟨.startTag name, stack, root⟩ : Reader).run " x".toList =
      some ⟨.attribute ⟨name, []⟩ ['x'], stack, root⟩ := by
    have hspace : (⟨.startTag name, stack, root⟩ : Reader).step ' ' =
        some ⟨.space ⟨name, []⟩, stack, root⟩ := by
      have hxml : isXmlChar ' ' = true := by decide
      have hname : isNameChar ' ' = false := by decide
      have hblank : isSpace ' ' = true := by decide
      simp [Reader.step, Reader.behind, hxml, hname, hblank]
    have hx : (⟨.space ⟨name, []⟩, stack, root⟩ : Reader).step 'x' =
        some ⟨.attribute ⟨name, []⟩ ['x'], stack, root⟩ := by
      have hxml : isXmlChar 'x' = true := by decide
      have hname : isNameStart 'x' = true := by decide
      simp [Reader.step, hxml, hname]
    show Reader.run _ [' ', 'x'] = _
    rw [Reader.run_cons, hspace, Option.bind_some, Reader.run_cons, hx]
    rfl
  have hend (n : Text) : (⟨.attribute ⟨name, []⟩ n, stack, root⟩ : Reader).run "=\"".toList =
      some ⟨.value ⟨name, []⟩ n '"' [], stack, root⟩ := by
    have heq : (⟨.attribute ⟨name, []⟩ n, stack, root⟩ : Reader).step '=' =
        some ⟨.quote ⟨name, []⟩ n, stack, root⟩ := by
      have hxml : isXmlChar '=' = true := by decide
      have hname : isNameChar '=' = false := by decide
      simp [Reader.step, hxml, hname]
    have hmark : (⟨.quote ⟨name, []⟩ n, stack, root⟩ : Reader).step '"' =
        some ⟨.value ⟨name, []⟩ n '"' [], stack, root⟩ := by
      have hxml : isXmlChar '"' = true := by decide
      simp [Reader.step, hxml]
    show Reader.run _ ['=', '"'] = _
    rw [Reader.run_cons, heq, Option.bind_some, Reader.run_cons, hmark]
    rfl
  have hchars : ∀ c ∈ "mlns:".toList ++ own, isNameChar c = true := by
    intro c hc
    rcases List.mem_append.mp hc with hc | hc
    · have hmlns : "mlns:".toList.all isNameChar = true := by decide
      exact List.all_eq_true.mp hmlns c hc
    · exact ncName_chars hown c hc
  have hsplit : declares own ++ rest =
      " x".toList ++ (("mlns:".toList ++ own) ++ ("=\"".toList ++ rest)) := by
    show (" x".toList ++ "mlns:".toList) ++ own ++ "=\"".toList ++ rest = _
    simp only [List.append_assoc]
  rw [hsplit, Reader.run_append, hstart, Option.bind_some, run_attribute hchars,
    Reader.run_append, hend, Option.bind_some]
  rfl

/-- The end of a value. -/
theorem step_mark {n : Text} (value : Text) :
    (⟨.value ⟨name, []⟩ n '"' value, stack, root⟩ : Reader).step '"' =
      some ⟨.behindValue ⟨name, [(n, value)]⟩, stack, root⟩ := by
  simp [Reader.step, isXmlChar, inRanges]

/-- **An empty element that declares its own prefix**, where its name may be none and the namespace
one it may not bind. -/
theorem yields_declaring {own : Text} {outcome : Option Text} (hown : isNCName own = true)
    (hxml : own ≠ "xml".toList) (hxmlns : own ≠ "xmlns".toList)
    (h : ∀ c ∈ name, separates c = false) (hvalue : Means value outcome) :
    Yields before ('<' :: (own ++ ':' :: name) ++ declares own ++ value ++ "\"/>".toList)
      (if isNCName name then
        (outcome.filter fun v => decide (Bindable v)).map fun v =>
          [.element ⟨own ++ ':' :: name, [("xmlns:".toList ++ own, v)]⟩ []]
      else none) := by
  intro brackets tag items below root _
  by_cases hbad : ∃ c ∈ name, isNameChar c = false
  · refine ⟨0, ?_⟩
    have hsplit : '<' :: (own ++ ':' :: name) ++ declares own ++ value ++ "\"/>".toList =
        '<' :: (own ++ ':' :: []) ++ (name ++ (declares own ++ value ++ "\"/>".toList)) := by simp
    rw [hsplit, run_qualified hown (fun c hc => absurd hc List.not_mem_nil), run_notName h hbad,
      ncName_false hbad]
    rfl
  · have hname : ∀ c ∈ name, isNameChar c = true := fun c hc => by
      by_contra hnot
      exact hbad ⟨c, hc, Bool.eq_false_iff.mpr hnot⟩
    have hslash (t : Tag) : (⟨.behindValue t, (tag, items) :: below, root⟩ : Reader).step '/' =
        some ⟨.slash t, (tag, items) :: below, root⟩ := by
      simp [Reader.step, Reader.behind, isXmlChar, inRanges, isSpace]
    refine ⟨0, ?_⟩
    rw [List.append_assoc, List.append_assoc, run_qualified hown hname, run_declares hown,
      Reader.run_append, hvalue]
    cases outcome with
    | none =>
      split_ifs <;> rfl
    | some v =>
      show (⟨.value ⟨own ++ ':' :: name, []⟩ ("xmlns:".toList ++ own) '"' ([] ++ v),
        (tag, items) :: below, root⟩ : Reader).run ['"', '/', '>'] = _
      rw [List.nil_append, Reader.run_cons, step_mark, Option.bind_some, Reader.run_cons, hslash,
        Option.bind_some, Reader.run_cons, Reader.step_slash, sound_declaring hown hxml hxmlns]
      cases isNCName name with
      | false => rfl
      | true =>
        by_cases hbind : Bindable v
        · rw [Option.filter_some, decide_eq_true hbind]
          rfl
        · rw [Option.filter_some, decide_eq_false hbind]
          rfl

end

/-! ## Documents -/

theorem enter_root (state : State) (h : tag.sound [] = true) :
    (⟨state, [], none⟩ : Reader).enter tag = some (Reader.within 0 [(tag, [])] none) := by
  simp [Reader.enter, h]

/-- The end tag of the document. -/
theorem run_rootClose {brackets : Nat} {items : List Item}
    (hname : ∀ c ∈ tag.name, isNameChar c = true) :
    (Reader.within brackets [(tag, items)] none).run (closeTag tag.name) =
      some ⟨.content 0, [], some (.element tag items)⟩ := by
  have hslash : (⟨.less, [(tag, items)], none⟩ : Reader).step '/' =
      some ⟨.endTag [], [(tag, items)], none⟩ := by
    simp [Reader.step, isXmlChar, inRanges]
  rw [closeTag, List.cons_append, Reader.run_cons, Reader.step_less, Option.bind_some,
    List.cons_append, Reader.run_cons, hslash, Option.bind_some, Reader.run_endTag hname,
    List.nil_append, Reader.run_cons, Reader.step_close]
  rfl

/-- **A document of one element**, which declares the prefix its content is read with. -/
theorem read_document {own value v : Text} {outcome : Option (List Item)}
    (hown : isNCName own = true) (hxml : own ≠ "xml".toList) (hxmlns : own ≠ "xmlns".toList)
    (hname : isNCName name = true) (hvalue : Means value (some v)) (hbind : Bindable v)
    (h : Yields own text outcome) :
    read (DECLARATION ++ ('<' :: (own ++ ':' :: name) ++ declares own ++ value ++ "\">".toList) ++
        text ++ closeTag (own ++ ':' :: name)) =
      outcome.map fun items =>
        .element ⟨own ++ ':' :: name, [("xmlns:".toList ++ own, v)]⟩ items := by
  have hchars : ∀ c ∈ own ++ ':' :: name, isNameChar c = true := by
    obtain ⟨first, tail, heq, hfirst, htail⟩ := qualified_chars hown (ncName_chars hname)
    rw [heq]
    exact List.forall_mem_cons.mpr ⟨Bool.or_eq_true_iff.mpr (Or.inl hfirst), htail⟩
  have hmore (t : Tag) : (⟨.behindValue t, [], none⟩ : Reader).step '>' =
      (⟨.behindValue t, [], none⟩ : Reader).enter t := by
    have hxml : isXmlChar '>' = true := by decide
    have hspace : isSpace '>' = false := by decide
    simp [Reader.step, Reader.behind, hxml, hspace]
  have hsound : Tag.sound [] ⟨own ++ ':' :: name, [("xmlns:".toList ++ own, v)]⟩ = true := by
    rw [sound_declaring hown hxml hxmlns, hname, decide_eq_true hbind]
    rfl
  have hscope : (resolve (⟨own ++ ':' :: name, [("xmlns:".toList ++ own, v)]⟩ :: []) own).isSome =
      true := by
    rw [resolve_declaring hxml]
    rfl
  have hopen : (⟨.content 0, [], none⟩ : Reader).run
      ('<' :: (own ++ ':' :: name) ++ declares own ++ value ++ "\">".toList) =
        some (Reader.within 0 [(⟨own ++ ':' :: name, [("xmlns:".toList ++ own, v)]⟩, [])] none) := by
    rw [List.append_assoc, List.append_assoc, run_qualified hown (ncName_chars hname),
      run_declares hown, Reader.run_append, hvalue]
    show (⟨.value ⟨own ++ ':' :: name, []⟩ ("xmlns:".toList ++ own) '"' ([] ++ v), [], none⟩ :
      Reader).run ['"', '>'] = _
    rw [List.nil_append, Reader.run_cons, step_mark, Option.bind_some, Reader.run_cons, hmore,
      enter_root _ hsound]
    rfl
  obtain ⟨brackets, hrun⟩ :=
    h 0 ⟨own ++ ':' :: name, [("xmlns:".toList ++ own, v)]⟩ [] [] none hscope
  have hsplit : DECLARATION ++ ('<' :: (own ++ ':' :: name) ++ declares own ++ value ++
      "\">".toList) ++ text ++ closeTag (own ++ ':' :: name) =
        DECLARATION ++ (('<' :: (own ++ ':' :: name) ++ declares own ++ value ++ "\">".toList) ++
          (text ++ closeTag (own ++ ':' :: name))) := by
    rw [List.append_assoc, List.append_assoc]
  unfold read
  dsimp only
  rw [hsplit, if_pos (List.prefix_append _ _), List.drop_left, Reader.run_append, hopen,
    Option.bind_some, Reader.run_append, hrun]
  cases outcome with
  | none => rfl
  | some items =>
    rw [Option.map_some, Option.bind_some, List.nil_append,
      @run_rootClose ⟨own ++ ':' :: name, [("xmlns:".toList ++ own, v)]⟩ _ _ hchars]
    rfl

end Stashden.Lib.Xml
