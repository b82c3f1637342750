import Mathlib.Data.Bool.AllAny
import Stashden.Dav.Href
import Stashden.Dav.Propfind
import Stashden.Lib.Xml

/-!
# A multistatus answer (`api/src/dav/xml.rs`, `locking.rs:188-238`)

The document is put together from text: what stands in it is escaped, the numbers, dates, tags and
tokens the server writes itself are `Plain`, and the names and namespaces of properties that are not
kept come back as they were asked for.

`yields_response` reads it part by part, and `multistatus_iff` is when it comes out as the answer it is
meant to be.
-/

namespace Stashden.Dav

open Lib Stashden.Core Xml

/-- A character that means nothing in markup. -/
def isPlain (c : Char) : Bool :=
  c.isAlphanum || decide (c ∈ [' ', ',', ':', '+', '-', '.', '/'])

/-- A text of such characters: a date, a hash or a token in digits. -/
structure Plain where
  text : Str
  plain : text.all isPlain = true

/-- A number as it is written. -/
def decimal (n : Int) : Str := (toString n).toList

inductive NodeKind where
  | directory
  | file
  deriving DecidableEq

/-- `Node`, as far as an answer reads it: `etag` is the digits between the quotes, and `updatedAt` what
`http_date` makes of the date. -/
structure Node where
  name : Str
  kind : NodeKind
  size : Int
  etag : Plain
  updatedAt : Plain

/-- `Viewer`. -/
structure Viewer where
  used : Int
  available : Int
  writable : Bool

/-- `Lock`, as far as an answer reads it: `token` is what follows `opaquelocktoken:`. -/
structure Lock where
  token : Plain
  holder : Option Str
  deep : Bool
  secondsLeft : Int

def MULTISTATUS_OPEN : Str :=
  "<?xml version=\"1.0\" encoding=\"utf-8\"?><D:multistatus xmlns:D=\"DAV:\">".toList

def MULTISTATUS_CLOSE : Str := "</D:multistatus>".toList

/-- `SUPPORTED_LOCK`. -/
def SUPPORTED_LOCK : Str :=
  ("<D:supportedlock><D:lockentry>" ++
    "<D:lockscope><D:exclusive/></D:lockscope><D:locktype><D:write/></D:locktype>" ++
    "</D:lockentry></D:supportedlock>").toList

/-- What `escape` writes for a character. -/
def escapeChar : Char → Str
  | '&' => "&amp;".toList
  | '<' => "&lt;".toList
  | '>' => "&gt;".toList
  | '"' => "&quot;".toList
  | '\'' => "&apos;".toList
  | other => [other]

/-- `escape`. -/
def escape (raw : Str) : Str := raw.flatMap escapeChar

/-- `privileges`. -/
def privileges (writable : Bool) : Str :=
  "<D:current-user-privilege-set><D:privilege><D:read/></D:privilege>".toList ++
    (if writable then "<D:privilege><D:write/></D:privilege>".toList else []) ++
    "</D:current-user-privilege-set>".toList

/-- `value`. -/
def value (property : Property) (node : Node) (viewer : Viewer) (lock : Option Str) : Option Str :=
  match property with
  | .resourceType =>
    match node.kind with
    | .directory => some "<D:resourcetype><D:collection/></D:resourcetype>".toList
    | .file => some "<D:resourcetype/>".toList
  | .displayName =>
    some ("<D:displayname>".toList ++ escape node.name ++ "</D:displayname>".toList)
  | .etag =>
    some ("<D:getetag>".toList ++ escape ('"' :: node.etag.text ++ ['"']) ++ "</D:getetag>".toList)
  | .lastModified =>
    some ("<D:getlastmodified>".toList ++ node.updatedAt.text ++ "</D:getlastmodified>".toList)
  | .contentLength =>
    match node.kind with
    | .file =>
      some ("<D:getcontentlength>".toList ++ decimal node.size ++ "</D:getcontentlength>".toList)
    | .directory => none
  | .contentType =>
    match node.kind with
    | .file => some "<D:getcontenttype>application/octet-stream</D:getcontenttype>".toList
    | .directory => some "<D:getcontenttype>httpd/unix-directory</D:getcontenttype>".toList
  | .quotaUsed =>
    some ("<D:quota-used-bytes>".toList ++ decimal viewer.used ++ "</D:quota-used-bytes>".toList)
  | .lockDiscovery =>
    some ("<D:lockdiscovery>".toList ++ lock.getD [] ++ "</D:lockdiscovery>".toList)
  | .supportedLock => some SUPPORTED_LOCK
  | .quotaAvailable =>
    some ("<D:quota-available-bytes>".toList ++ decimal viewer.available ++
      "</D:quota-available-bytes>".toList)
  | .currentUserPrivilegeSet => some (privileges viewer.writable)

/-- A property without a value. -/
def bare (property : Property) : Str := "<D:".toList ++ property.name ++ "/>".toList

/-- `foreign`. -/
def foreign (property : Unknown) : Str :=
  if property.nameSpace = [] then "<".toList ++ property.name ++ "/>".toList
  else "<ns:".toList ++ property.name ++ " xmlns:ns=\"".toList ++ escape property.nameSpace ++
    "\"/>".toList

section

variable (node : Node) (viewer : Viewer) (requested : Requested) (lock : Option Str)

/-- The properties `response` answers with their values. -/
def found : Str :=
  requested.properties.flatMap fun property =>
    if requested.namesOnly then bare property else (value property node viewer lock).getD []

/-- The properties `response` answers as missing. -/
def missing : Str :=
  (requested.properties.flatMap fun property =>
    if requested.namesOnly || (value property node viewer lock).isSome then [] else bare property) ++
  requested.unknown.flatMap foreign

/-- `response`. -/
def response (href : Str) : Str :=
  "<D:response><D:href>".toList ++ escape href ++ "</D:href>".toList ++
    ("<D:propstat><D:prop>".toList ++ found node viewer requested lock ++
      "</D:prop><D:status>HTTP/1.1 200 OK</D:status></D:propstat>".toList) ++
    (if missing node viewer requested lock = [] then []
      else "<D:propstat><D:prop>".toList ++ missing node viewer requested lock ++
        "</D:prop>             <D:status>HTTP/1.1 404 Not Found</D:status></D:propstat>".toList) ++
    "</D:response>".toList

end

/-- `active`. -/
def active (P : Percent) (lock : Lock) (path : List NodeName) (kind : NodeKind) : Str :=
  ("<D:activelock><D:locktype><D:write/></D:locktype>" ++
    "<D:lockscope><D:exclusive/></D:lockscope>").toList ++
  ("<D:depth>".toList ++ (if lock.deep then "infinity".toList else "0".toList) ++
    "</D:depth>".toList) ++
  (match lock.holder with
    | some holder => "<D:owner>".toList ++ escape holder ++ "</D:owner>".toList
    | none => []) ++
  ("<D:timeout>".toList ++ ("Second-".toList ++ decimal lock.secondsLeft) ++
    "</D:timeout><D:locktoken><D:href>".toList ++
    escape ("opaquelocktoken:".toList ++ lock.token.text) ++
    "</D:href></D:locktoken><D:lockroot><D:href>".toList ++
    escape (href P path (kind = .directory)) ++ "</D:href></D:lockroot></D:activelock>".toList)

/-- One node of an answer. -/
structure Entry where
  path : List NodeName
  node : Node
  viewer : Viewer
  lock : Option Lock

/-- The href an entry is answered under. -/
def Entry.href (P : Percent) (e : Entry) : Str := Dav.href P e.path (e.node.kind = .directory)

/-- The text of an entry's lock. -/
def Entry.lockText (P : Percent) (e : Entry) : Option Str :=
  e.lock.map fun lock => active P lock e.path e.node.kind

/-- The document `propfind` answers. -/
def document (P : Percent) (requested : Requested) (entries : List Entry) : Str :=
  MULTISTATUS_OPEN ++
    (entries.flatMap fun e =>
      response e.node e.viewer requested (e.lockText P) (e.href P)) ++
    MULTISTATUS_CLOSE

/-! ## Text -/

variable {before : Str}

/-- The reference `escape` writes for one of the five characters. -/
theorem yields_escapeChar (c : Char) :
    Yields before (escapeChar c) (if isXmlChar c then some [.char c] else none) := by
  unfold escapeChar
  split
  · exact @yields_reference '&' "amp".toList before (List.all_iff_forall_prop.mp (by decide)) rfl
  · exact @yields_reference '<' "lt".toList before (List.all_iff_forall_prop.mp (by decide)) rfl
  · exact @yields_reference '>' "gt".toList before (List.all_iff_forall_prop.mp (by decide)) rfl
  · exact @yields_reference '"' "quot".toList before (List.all_iff_forall_prop.mp (by decide)) rfl
  · exact @yields_reference '\'' "apos".toList before (List.all_iff_forall_prop.mp (by decide)) rfl
  · rename_i hamp hless hmore hquote hapos
    cases hc : isXmlChar c with
    | false => exact yields_bad hc
    | true => exact yields_char hc hless hamp hmore

/-- **Escaped text is read as it was**, where a document may hold its characters. -/
theorem yields_escape (s : Str) :
    Yields before (escape s) (if s.all isXmlChar then some (s.map .char) else none) := by
  rw [← collect_chars isXmlChar Item.char s]
  exact yields_flatMap fun c _ => yields_escapeChar c

theorem means_escapeChar (c : Char) :
    Means (escapeChar c) (if isXmlChar c then some [if isSpace c then ' ' else c] else none) := by
  unfold escapeChar
  split
  · exact @means_reference '&' "amp".toList (List.all_iff_forall_prop.mp (by decide)) rfl
  · exact @means_reference '<' "lt".toList (List.all_iff_forall_prop.mp (by decide)) rfl
  · exact @means_reference '>' "gt".toList (List.all_iff_forall_prop.mp (by decide)) rfl
  · exact @means_reference '"' "quot".toList (List.all_iff_forall_prop.mp (by decide)) rfl
  · exact @means_reference '\'' "apos".toList (List.all_iff_forall_prop.mp (by decide)) rfl
  · rename_i hamp hless hmore hquote hapos
    cases hc : isXmlChar c with
    | false => exact means_bad hc
    | true => exact means_char hc hquote hless hamp

/-- A text as a reader takes it from an attribute. -/
def normalised (s : Str) : Str := s.map fun c => if isSpace c then ' ' else c

theorem means_escape (s : Str) :
    Means (escape s) (if s.all isXmlChar then some (normalised s) else none) := by
  rw [normalised, ← collect_chars isXmlChar _ s]
  exact means_flatMap fun c _ => means_escapeChar c

theorem xmlChar_of_bounds {c : Char} (hlow : 0x20 ≤ c.toNat) (hhigh : c.toNat ≤ 0xD7FF) :
    isXmlChar c = true := by
  refine List.any_eq_true.mpr ⟨(0x20, 0xD7FF), by decide, ?_⟩
  rw [decide_eq_true hlow, decide_eq_true hhigh]
  rfl

theorem xmlChar_of_plain {c : Char} (h : isPlain c = true) :
    isXmlChar c = true ∧ c ≠ '<' ∧ c ≠ '&' ∧ c ≠ '>' := by
  refine ⟨?_, ?_, ?_, ?_⟩
  · rcases Bool.or_eq_true_iff.mp h with h | h
    · have hbounds : 0x20 ≤ c.toNat ∧ c.toNat ≤ 0xD7FF := by
        change (decide ('A'.val ≤ c.val ∧ c.val ≤ 'Z'.val) ||
          ('a'.val ≤ c.val && c.val ≤ 'z'.val) || ('0'.val ≤ c.val && c.val ≤ '9'.val)) = true at h
        simp only [Bool.or_eq_true, Bool.and_eq_true, decide_eq_true_eq,
          UInt32.le_iff_toNat_le] at h
        unfold Char.toNat
        rcases h with (⟨hlow, hhigh⟩ | ⟨hlow, hhigh⟩) | ⟨hlow, hhigh⟩
        · exact ⟨le_trans (by decide) hlow, le_trans hhigh (by decide)⟩
        · exact ⟨le_trans (by decide) hlow, le_trans hhigh (by decide)⟩
        · exact ⟨le_trans (by decide) hlow, le_trans hhigh (by decide)⟩
      exact xmlChar_of_bounds hbounds.1 hbounds.2
    · have hmarks : ∀ c ∈ [' ', ',', ':', '+', '-', '.', '/'], isXmlChar c = true :=
        List.all_iff_forall_prop.mp (by decide)
      exact hmarks c (of_decide_eq_true h)
  · rintro rfl
    exact absurd h (by decide)
  · rintro rfl
    exact absurd h (by decide)
  · rintro rfl
    exact absurd h (by decide)

theorem yields_plain {s : Str} (h : s.all isPlain = true) :
    Yields before s (some (s.map .char)) := by
  induction s with
  | nil => exact yields_nil
  | cons c s ih =>
    rw [List.all_cons, Bool.and_eq_true] at h
    obtain ⟨hxml, hless, hamp, hmore⟩ := xmlChar_of_plain h.1
    exact yields_append (yields_char hxml hless hamp hmore) (ih h.2)

theorem nat_plain (n : Nat) : (toString n).toList.all isPlain = true := by
  refine List.all_eq_true.mpr fun c hc => Bool.or_eq_true_iff.mpr (Or.inl ?_)
  rw [Nat.toString_eq_repr, Nat.repr, String.toList_ofList] at hc
  have hdigit := Nat.isDigit_of_mem_toDigits (by decide) (by decide) hc
  rw [Char.isAlphanum, hdigit, Bool.or_true]

theorem decimal_plain (n : Int) : (decimal n).all isPlain = true := by
  cases n with
  | ofNat n => exact nat_plain n
  | negSucc n =>
    have hsplit : decimal (Int.negSucc n) = '-' :: (toString (n + 1)).toList := by
      show (("-" ++ toString (n + 1) : String)).toList = _
      rw [String.toList_append]
      rfl
    rw [hsplit, List.all_cons, nat_plain]
    rfl

/-! ## Elements of the namespace -/

/-- A name with the prefix the document declares. -/
def dav (name : Str) : Str := "D".toList ++ ':' :: name

/-- An element of that namespace. -/
def el (name : Str) (children : List Item) : Item := .element ⟨dav name, []⟩ children

/-- The text of an element. -/
def txt (s : Str) : List Item := s.map .char

/-- The text of an element around some content. -/
def tagged (name inner : Str) : Str := openTag (dav name) ++ inner ++ closeTag (dav name)

variable {name inner text : Str} {outcome : Option (List Item)}

/-- Content below the prefix of the document. -/
abbrev Reads (text : Str) (outcome : Option (List Item)) : Prop := Yields "D".toList text outcome

theorem reads_tagged (hname : isNCName name = true) (h : Reads inner outcome) :
    Reads (tagged name inner) (outcome.map fun items => [el name items]) :=
  yields_element (by decide) (by decide) hname h

/-- What a text comes to, read as an element around some content. -/
theorem reads_el (htext : text = tagged name inner) (hname : isNCName name = true)
    (h : Reads inner outcome) : Reads text (outcome.map fun items => [el name items]) :=
  htext ▸ reads_tagged hname h

theorem reads_bare (htext : text = emptyTag (dav name)) (hname : isNCName name = true) :
    Reads text (some [el name []]) :=
  htext ▸ yields_empty (by decide) (by decide) hname

theorem name_ncName (property : Property) : isNCName property.name = true := by
  cases property <;> decide

theorem reads_property (property : Property) :
    Reads (bare property) (some [el property.name []]) := by
  refine reads_bare ?_ (name_ncName property)
  simp [emptyTag, dav, bare]

/-- What a text comes to, read as characters. -/
theorem reads_escape (s : Str) :
    Reads (escape s) (if s.all isXmlChar then some (txt s) else none) := yields_escape s

theorem reads_plain {s : Str} (h : s.all isPlain = true) : Reads s (some (txt s)) := yields_plain h

/-- The children of `supportedlock`. -/
def lockEntry : List Item :=
  [el "lockentry".toList [el "lockscope".toList [el "exclusive".toList []],
    el "locktype".toList [el "write".toList []]]]

theorem reads_lockScope : Reads "<D:lockscope><D:exclusive/></D:lockscope>".toList
    (some [el "lockscope".toList [el "exclusive".toList []]]) := by
  have hexclusive : Reads "<D:exclusive/>".toList (some [el "exclusive".toList []]) :=
    reads_bare (by decide +kernel) (by decide)
  refine reads_el ?_ (by decide) hexclusive
  decide +kernel

theorem reads_lockType : Reads "<D:locktype><D:write/></D:locktype>".toList
    (some [el "locktype".toList [el "write".toList []]]) := by
  have hwrite : Reads "<D:write/>".toList (some [el "write".toList []]) :=
    reads_bare (by decide +kernel) (by decide)
  refine reads_el ?_ (by decide) hwrite
  decide +kernel

theorem reads_supportedLock :
    Reads SUPPORTED_LOCK (some [el Property.supportedLock.name lockEntry]) := by
  have hentry := @reads_tagged "lockentry".toList _ _ (by decide)
    (yields_append reads_lockScope reads_lockType)
  refine reads_el ?_ (name_ncName _) hentry
  decide +kernel

/-- An element between its two tags. -/
theorem reads_between {opening closing : Str} (hopen : opening = openTag (dav name))
    (hclose : closing = closeTag (dav name)) (hname : isNCName name = true)
    (h : Reads inner outcome) :
    Reads (opening ++ inner ++ closing) (outcome.map fun items => [el name items]) :=
  reads_el (by rw [hopen, hclose, tagged]) hname h

/-- The children of `current-user-privilege-set`. -/
def privilegeItems (writable : Bool) : List Item :=
  el "privilege".toList [el "read".toList []] ::
    if writable then [el "privilege".toList [el "write".toList []]] else []

theorem reads_privileges (writable : Bool) : Reads (privileges writable)
    (some [el Property.currentUserPrivilegeSet.name (privilegeItems writable)]) := by
  have hbare {right : Str} (h : isNCName right = true) :
      Reads (tagged "privilege".toList (emptyTag (dav right)))
        (some [el "privilege".toList [el right []]]) :=
    reads_tagged (by decide) (reads_bare rfl h)
  have hread := @hbare "read".toList (by decide)
  have hwrite := @hbare "write".toList (by decide)
  cases writable with
  | false =>
    refine reads_el ?_ (name_ncName _) hread
    decide +kernel
  | true =>
    refine reads_el ?_ (name_ncName _) (yields_append hread hwrite)
    decide +kernel

/-- What the value of a property holds: nothing a document could have where the name of the node or the
lock it shows is not to be written. -/
def kids (property : Property) (node : Node) (viewer : Viewer) (lock : Option (List Item)) :
    Option (List Item) :=
  match property with
  | .resourceType =>
    match node.kind with
    | .directory => some [el "collection".toList []]
    | .file => some []
  | .displayName => if node.name.all isXmlChar then some (txt node.name) else none
  | .etag => some (txt ('"' :: node.etag.text ++ ['"']))
  | .lastModified => some (txt node.updatedAt.text)
  | .contentLength => some (txt (decimal node.size))
  | .contentType =>
    match node.kind with
    | .file => some (txt "application/octet-stream".toList)
    | .directory => some (txt "httpd/unix-directory".toList)
  | .quotaUsed => some (txt (decimal viewer.used))
  | .lockDiscovery => lock
  | .supportedLock => some lockEntry
  | .quotaAvailable => some (txt (decimal viewer.available))
  | .currentUserPrivilegeSet => some (privilegeItems viewer.writable)

theorem etag_xmlChars (etag : Plain) : ('"' :: etag.text ++ ['"']).all isXmlChar = true := by
  have hplain : etag.text.all isXmlChar = true :=
    List.all_eq_true.mpr fun c hc => (xmlChar_of_plain (List.all_eq_true.mp etag.plain c hc)).1
  rw [List.all_append, List.all_cons, hplain]
  decide

/-- **A value is read as the element of its property.** -/
theorem reads_value {property : Property} {node : Node} {viewer : Viewer} {lock : Option Str}
    {locked : Option (List Item)} (hlock : Reads (lock.getD []) locked)
    (h : value property node viewer lock = some text) :
    Reads text ((kids property node viewer locked).map fun items => [el property.name items]) := by
  cases property with
  | resourceType =>
    unfold value at h
    unfold kids
    cases hkind : node.kind with
    | directory =>
      rw [hkind] at h
      cases h
      have hcollection : Reads (emptyTag (dav "collection".toList))
          (some [el "collection".toList []]) := reads_bare rfl (by decide)
      refine reads_el ?_ (name_ncName _) hcollection
      decide +kernel
    | file =>
      rw [hkind] at h
      cases h
      exact reads_bare (by decide +kernel) (name_ncName _)
  | displayName =>
    cases h
    exact reads_between (by decide +kernel) (by decide +kernel) (name_ncName _) (reads_escape _)
  | etag =>
    cases h
    have hetag := reads_escape ('"' :: node.etag.text ++ ['"'])
    rw [if_pos (etag_xmlChars node.etag)] at hetag
    exact reads_between (by decide +kernel) (by decide +kernel) (name_ncName _) hetag
  | lastModified =>
    cases h
    exact reads_between (by decide +kernel) (by decide +kernel) (name_ncName _)
      (reads_plain node.updatedAt.plain)
  | contentLength =>
    unfold value at h
    cases hkind : node.kind with
    | directory =>
      rw [hkind] at h
      cases h
    | file =>
      rw [hkind] at h
      cases h
      exact reads_between (by decide +kernel) (by decide +kernel) (name_ncName _)
        (reads_plain (decimal_plain _))
  | contentType =>
    unfold value at h
    unfold kids
    cases hkind : node.kind with
    | directory =>
      rw [hkind] at h
      cases h
      refine reads_el ?_ (name_ncName _) (reads_plain (s := "httpd/unix-directory".toList) ?_)
      · decide +kernel
      · decide
    | file =>
      rw [hkind] at h
      cases h
      refine reads_el ?_ (name_ncName _) (reads_plain (s := "application/octet-stream".toList) ?_)
      · decide +kernel
      · decide
  | quotaUsed =>
    cases h
    exact reads_between (by decide +kernel) (by decide +kernel) (name_ncName _)
      (reads_plain (decimal_plain _))
  | lockDiscovery =>
    cases h
    exact reads_between (by decide +kernel) (by decide +kernel) (name_ncName _) hlock
  | supportedLock =>
    have htext : SUPPORTED_LOCK = text := Option.some.inj h
    exact htext ▸ reads_supportedLock
  | quotaAvailable =>
    cases h
    exact reads_between (by decide +kernel) (by decide +kernel) (name_ncName _)
      (reads_plain (decimal_plain _))
  | currentUserPrivilegeSet =>
    have htext : privileges viewer.writable = text := Option.some.inj h
    exact htext ▸ reads_privileges viewer.writable

/-! ## Locks -/

/-- What `activelock` holds. -/
def lockItems (P : Percent) (lock : Lock) (path : List NodeName) (kind : NodeKind) : List Item :=
  [el "locktype".toList [el "write".toList []]] ++ [el "lockscope".toList [el "exclusive".toList []]] ++
    [el "depth".toList (txt (if lock.deep then "infinity".toList else "0".toList))] ++
    (lock.holder.elim [] fun holder => [el "owner".toList (txt holder)]) ++
    [el "timeout".toList (txt ("Second-".toList ++ decimal lock.secondsLeft))] ++
    [el "locktoken".toList
      [el "href".toList (txt ("opaquelocktoken:".toList ++ lock.token.text))]] ++
    [el "lockroot".toList [el "href".toList (txt (href P path (kind = .directory)))]]

/-- The text of a lock, from the texts of its parts. -/
theorem active_tagged {a b c d e depth owner left token root : Str}
    (ha : a = openTag (dav "activelock".toList) ++
      (tagged "locktype".toList (emptyTag (dav "write".toList)) ++
        tagged "lockscope".toList (emptyTag (dav "exclusive".toList))))
    (hb : b = openTag (dav "timeout".toList))
    (hc : c = closeTag (dav "timeout".toList) ++ openTag (dav "locktoken".toList) ++
      openTag (dav "href".toList))
    (hd : d = closeTag (dav "href".toList) ++ closeTag (dav "locktoken".toList) ++
      openTag (dav "lockroot".toList) ++ openTag (dav "href".toList))
    (he : e = closeTag (dav "href".toList) ++ closeTag (dav "lockroot".toList) ++
      closeTag (dav "activelock".toList)) :
    a ++ depth ++ owner ++ (b ++ left ++ c ++ token ++ d ++ root ++ e) =
      tagged "activelock".toList (tagged "locktype".toList (emptyTag (dav "write".toList)) ++
        tagged "lockscope".toList (emptyTag (dav "exclusive".toList)) ++ depth ++ owner ++
        tagged "timeout".toList left ++ tagged "locktoken".toList (tagged "href".toList token) ++
        tagged "lockroot".toList (tagged "href".toList root)) := by
  subst ha hb hc hd he
  simp only [tagged, List.append_assoc]

theorem xmlChar_of_pathChar {c : Char} (h : isPathChar c = true) : isXmlChar c = true := by
  simp only [isPathChar, Bool.or_eq_true, Bool.and_eq_true, decide_eq_true_eq, Char.le_def,
    UInt32.le_iff_toNat_le] at h
  refine xmlChar_of_bounds ?_ ?_
  · unfold Char.toNat
    rcases h with (((((rfl | h) | rfl) | h) | h) | rfl) | rfl
    · decide
    · exact le_trans (by decide) h.1
    · decide
    · exact le_trans (by decide) h.1
    · exact le_trans (by decide) h.1
    · decide
    · decide
  · unfold Char.toNat
    rcases h with (((((rfl | h) | rfl) | h) | h) | rfl) | rfl
    · decide
    · exact le_trans h.2 (by decide)
    · decide
    · exact le_trans h.2 (by decide)
    · exact le_trans h.2 (by decide)
    · decide
    · decide

/-- An href is text a document may have. -/
theorem reads_href {P : Percent} (hP : P.Documented) (path : List NodeName) (collection : Bool) :
    Reads (escape (href P path collection)) (some (txt (href P path collection))) := by
  have hall : (href P path collection).all isXmlChar = true := by
    obtain ⟨rest, hrest, hchars⟩ := href_pathChars hP path collection
    rw [hrest, List.all_cons]
    exact Bool.and_eq_true_iff.mpr ⟨by decide, List.all_eq_true.mpr fun c hc =>
      xmlChar_of_pathChar (hchars c hc)⟩
  have hread := reads_escape (href P path collection)
  rwa [if_pos hall] at hread

/-- What `active` writes of a holder. -/
theorem reads_owner (holder : Option Str) :
    Reads (match holder with
      | some holder => "<D:owner>".toList ++ escape holder ++ "</D:owner>".toList
      | none => [])
      (if (holder.getD []).all isXmlChar then
        some (holder.elim [] fun holder => [el "owner".toList (txt holder)]) else none) := by
  cases holder with
  | none => exact yields_nil
  | some holder =>
    have hread : Reads ("<D:owner>".toList ++ escape holder ++ "</D:owner>".toList)
        ((if holder.all isXmlChar then some (txt holder) else none).map fun items =>
          [el "owner".toList items]) :=
      reads_between (by decide +kernel) (by decide +kernel) (by decide) (reads_escape holder)
    rw [Option.getD_some]
    split_ifs at hread ⊢
    · exact hread
    · exact hread

theorem reads_token (token : Plain) :
    Reads (escape ("opaquelocktoken:".toList ++ token.text))
      (some (txt ("opaquelocktoken:".toList ++ token.text))) := by
  have hall : ("opaquelocktoken:".toList ++ token.text).all isXmlChar = true := by
    rw [List.all_append]
    exact Bool.and_eq_true_iff.mpr ⟨by decide, List.all_eq_true.mpr fun c hc =>
      (xmlChar_of_plain (List.all_eq_true.mp token.plain c hc)).1⟩
  have hread := reads_escape ("opaquelocktoken:".toList ++ token.text)
  rwa [if_pos hall] at hread

/-- **A lock is read as an `activelock`**, where its holder is text a document may have. -/
theorem reads_active {P : Percent} (hP : P.Documented) (lock : Lock) (path : List NodeName)
    (kind : NodeKind) :
    Reads (active P lock path kind)
      (if (lock.holder.getD []).all isXmlChar then
        some [el "activelock".toList (lockItems P lock path kind)] else none) := by
  have hwrite : Reads (tagged "locktype".toList (emptyTag (dav "write".toList)))
      (some [el "locktype".toList [el "write".toList []]]) :=
    reads_tagged (by decide) (reads_bare rfl (by decide))
  have hscope : Reads (tagged "lockscope".toList (emptyTag (dav "exclusive".toList)))
      (some [el "lockscope".toList [el "exclusive".toList []]]) :=
    reads_tagged (by decide) (reads_bare rfl (by decide))
  have hdepthPlain : (if lock.deep then "infinity".toList else "0".toList).all isPlain = true := by
    cases lock.deep <;> decide
  have hdepth : Reads ("<D:depth>".toList ++ (if lock.deep then "infinity".toList else "0".toList) ++
      "</D:depth>".toList) (Option.map (fun items => [el "depth".toList items]) _) :=
    reads_between (by decide +kernel) (by decide +kernel) (by decide) (reads_plain hdepthPlain)
  have hleftPlain : ("Second-".toList ++ decimal lock.secondsLeft).all isPlain = true := by
    rw [List.all_append, decimal_plain]
    decide
  have htimeout : Reads (tagged "timeout".toList _) _ :=
    reads_tagged (by decide) (reads_plain hleftPlain)
  have htoken : Reads (tagged "locktoken".toList (tagged "href".toList _)) _ :=
    reads_tagged (by decide) (reads_tagged (by decide) (reads_token lock.token))
  have hroot : Reads (tagged "lockroot".toList (tagged "href".toList _)) _ :=
    reads_tagged (by decide) (reads_tagged (by decide) (reads_href hP path (kind = .directory)))
  have howner := reads_owner lock.holder
  unfold active
  rw [active_tagged (by decide +kernel) (by decide +kernel) (by decide +kernel)
    (by decide +kernel) (by decide +kernel)]
  have hall := @reads_tagged "activelock".toList _ _ (by decide)
    (yields_append (yields_append (yields_append (yields_append (yields_append
      (yields_append hwrite hscope) hdepth) howner) htimeout) htoken) hroot)
  cases hholder : (lock.holder.getD []).all isXmlChar with
  | true =>
    rw [hholder] at hall
    exact hall
  | false =>
    rw [hholder] at hall
    exact hall

/-! ## Properties that are not kept -/

/-- A name `is_name` lets through has nothing that ends a name or splits it. -/
theorem isName_separates {letters : Letters} (h : isName letters name = true) :
    name ≠ [] ∧ ∀ c ∈ name, separates c = false := by
  have hletter {c : Char} (hc : letters.alphanumeric c = true) : separates c = false := by
    cases hs : separates c with
    | false => rfl
    | true =>
      have hmarks : c ∈ [' ', '\t', '\n', '\r', '/', '>', ':'] := by
        rcases Bool.or_eq_true_iff.mp hs with hs | hs
        · rcases of_decide_eq_true hs with rfl | rfl | rfl | rfl <;> decide
        · exact List.mem_append_right [' ', '\t', '\n', '\r'] (of_decide_eq_true hs)
      have hnone : ∀ c ∈ [' ', '\t', '\n', '\r', '/', '>', ':'],
          c.toNat < 0x80 ∧ c.isAlphanum = false := List.all_iff_forall_prop.mp (by decide)
      rw [letters.ascii c (hnone c hmarks).1, (hnone c hmarks).2] at hc
      cases hc
  cases name with
  | nil => cases h
  | cons first rest =>
    obtain ⟨hfirst, hrest⟩ := Bool.and_eq_true_iff.mp h
    refine ⟨List.cons_ne_nil _ _, List.forall_mem_cons.mpr ⟨?_, fun c hc => ?_⟩⟩
    · rcases Bool.or_eq_true_iff.mp hfirst with hfirst | hfirst
      · exact hletter (letters.alphabetic_alphanumeric _ hfirst)
      · rw [of_decide_eq_true hfirst]
        decide
    · rcases Bool.or_eq_true_iff.mp (List.all_eq_true.mp hrest c hc) with hc | hc
      · exact hletter hc
      · have hmarks : ∀ c ∈ ['.', '-', '_'], separates c = false :=
          List.all_iff_forall_prop.mp (by decide)
        exact hmarks c (of_decide_eq_true hc)

/-- What comes back of a property that is not kept: a name, in a namespace that may be bound. -/
structure Unknown.Sound (u : Unknown) : Prop where
  name : isNCName u.name = true
  chars : u.nameSpace.all isXmlChar = true
  bindable : u.nameSpace ≠ XML_NAMESPACE ∧ u.nameSpace ≠ XMLNS_NAMESPACE

/-- Reading a namespace from an attribute makes no other one of it. -/
theorem normalised_eq_iff {s target : Str} (h : target.all (fun c => !isSpace c) = true) :
    normalised s = target ↔ s = target := by
  unfold normalised
  induction s generalizing target with
  | nil => rfl
  | cons c s ih =>
    cases target with
    | nil => simp
    | cons d target =>
      rw [List.all_cons, Bool.and_eq_true, Bool.not_eq_true'] at h
      rw [List.map_cons, List.cons.injEq, List.cons.injEq, ih h.2]
      refine and_congr_left fun _ => ?_
      cases hc : isSpace c with
      | false => exact iff_of_eq (by simp)
      | true =>
        refine iff_of_false (fun heq => ?_) fun heq => ?_
        · rw [if_pos rfl] at heq
          rw [← heq] at h
          exact absurd h.1 (by decide)
        · rw [heq, h.1] at hc
          cases hc

/-- What is read of a property that is not kept. -/
def foreignItem (u : Unknown) : Item :=
  if u.nameSpace = [] then .element ⟨u.name, []⟩ []
  else .element ⟨"ns".toList ++ ':' :: u.name, [("xmlns:".toList ++ "ns".toList,
    normalised u.nameSpace)]⟩ []

theorem foreign_eq {a b c name value : Str} (ha : a = '<' :: "ns".toList ++ [':'])
    (hb : b = declares "ns".toList) :
    a ++ name ++ b ++ value ++ c =
      '<' :: ("ns".toList ++ ':' :: name) ++ declares "ns".toList ++ value ++ c := by
  subst ha hb
  simp only [List.append_assoc, List.cons_append, List.nil_append]

/-- **A property that is not kept** is read as an element of its name and namespace, or ends the
reading. -/
theorem reads_foreign {letters : Letters} {u : Unknown} (h : isName letters u.name = true) :
    (u.Sound → Reads (foreign u) (some [foreignItem u])) ∧
      (¬ u.Sound → Reads (foreign u) none) := by
  obtain ⟨hne, hseparates⟩ := isName_separates h
  by_cases hempty : u.nameSpace = []
  · have hread := @yields_bare _ "D".toList hne hseparates
    have htext : foreign u = emptyTag u.name := by
      unfold foreign emptyTag
      rw [if_pos hempty]
      rfl
    rw [htext]
    refine ⟨fun hsound => ?_, fun hnot => ?_⟩
    · rw [if_pos hsound.name] at hread
      unfold foreignItem
      rw [if_pos hempty]
      exact hread
    · have hname : isNCName u.name = false := by
        refine Bool.eq_false_iff.mpr fun hname => hnot ⟨hname, ?_, ?_⟩
        · rw [hempty]
          rfl
        · rw [hempty]
          exact ⟨by decide, by decide⟩
      rw [hname] at hread
      exact hread
  · have hread := @yields_declaring _ "D".toList _ "ns".toList _ (by decide) (by decide)
      (by decide) hseparates (means_escape u.nameSpace)
    have htext : foreign u = '<' :: ("ns".toList ++ ':' :: u.name) ++ declares "ns".toList ++
        escape u.nameSpace ++ "\"/>".toList := by
      unfold foreign
      rw [if_neg hempty]
      exact foreign_eq (by decide +kernel) (by decide +kernel)
    have hbind : Bindable (normalised u.nameSpace) ↔
        u.nameSpace ≠ XML_NAMESPACE ∧ u.nameSpace ≠ XMLNS_NAMESPACE := by
      unfold Bindable
      have hnil : normalised u.nameSpace ≠ [] := fun heq => hempty (List.map_eq_nil_iff.mp heq)
      have hxml := @normalised_eq_iff u.nameSpace XML_NAMESPACE (by decide +kernel)
      have hxmlns := @normalised_eq_iff u.nameSpace XMLNS_NAMESPACE (by decide +kernel)
      exact ⟨fun hb => ⟨fun e => hb.2.1 (hxml.mpr e), fun e => hb.2.2 (hxmlns.mpr e)⟩,
        fun hb => ⟨hnil, fun e => hb.1 (hxml.mp e), fun e => hb.2 (hxmlns.mp e)⟩⟩
    rw [htext]
    refine ⟨fun hsound => ?_, fun hnot => ?_⟩
    · rw [if_pos hsound.name, if_pos hsound.chars, Option.filter_some, if_pos
        (decide_eq_true (hbind.mpr hsound.bindable))] at hread
      unfold foreignItem
      rw [if_neg hempty]
      exact hread
    · cases hname : isNCName u.name with
      | false =>
        rw [hname] at hread
        exact hread
      | true =>
        rw [hname, if_pos rfl] at hread
        cases hchars : u.nameSpace.all isXmlChar with
        | false =>
          rw [hchars] at hread
          exact hread
        | true =>
          have hnone : ¬ Bindable (normalised u.nameSpace) := fun hb =>
            hnot ⟨hname, hchars, hbind.mp hb⟩
          rw [hchars, if_pos rfl, Option.filter_some, if_neg] at hread
          · exact hread
          · rw [decide_eq_true_eq]
            exact hnone

/-! ## Responses -/

/-- The status of the properties that have one. -/
def statusOk : Item := el "status".toList (txt "HTTP/1.1 200 OK".toList)

/-- The properties that are missing. -/
def notFound (missing : List Item) : Item :=
  el "propstat".toList ([el "prop".toList missing] ++ (txt "             ".toList ++
    [el "status".toList (txt "HTTP/1.1 404 Not Found".toList)]))

theorem propstat_eq {a b status found : Str}
    (ha : a = openTag (dav "propstat".toList) ++ openTag (dav "prop".toList))
    (hb : b = closeTag (dav "prop".toList) ++ status ++ closeTag (dav "propstat".toList)) :
    a ++ found ++ b = tagged "propstat".toList (tagged "prop".toList found ++ status) := by
  subst ha hb
  simp only [tagged, List.append_assoc]

theorem reads_ok {text : Str} (h : Reads text outcome) :
    Reads ("<D:propstat><D:prop>".toList ++ text ++
      "</D:prop><D:status>HTTP/1.1 200 OK</D:status></D:propstat>".toList)
      (outcome.map fun found => [el "propstat".toList [el "prop".toList found, statusOk]]) := by
  have hstatus : Reads (tagged "status".toList "HTTP/1.1 200 OK".toList) (some [statusOk]) :=
    reads_tagged (by decide) (reads_plain (by decide))
  have hread := @reads_tagged "propstat".toList _ _ (by decide)
    (yields_append (@reads_tagged "prop".toList _ _ (by decide) h) hstatus)
  rw [@propstat_eq _ _ (tagged "status".toList "HTTP/1.1 200 OK".toList) text (by decide +kernel)
    (by decide +kernel)]
  cases outcome with
  | none => exact hread
  | some found => exact hread

theorem reads_notFound {text : Str} (h : Reads text outcome) :
    Reads ("<D:propstat><D:prop>".toList ++ text ++
      "</D:prop>             <D:status>HTTP/1.1 404 Not Found</D:status></D:propstat>".toList)
      (outcome.map fun missing => [notFound missing]) := by
  have hblanks : Reads "             ".toList (some (txt "             ".toList)) :=
    reads_plain (by decide)
  have hstatus : Reads (tagged "status".toList "HTTP/1.1 404 Not Found".toList)
      (some [el "status".toList (txt "HTTP/1.1 404 Not Found".toList)]) :=
    reads_tagged (by decide) (reads_plain (by decide))
  have hread := @reads_tagged "propstat".toList _ _ (by decide)
    (yields_append (@reads_tagged "prop".toList _ _ (by decide) h) (yields_append hblanks hstatus))
  rw [@propstat_eq _ _ ("             ".toList ++
    tagged "status".toList "HTTP/1.1 404 Not Found".toList) text (by decide +kernel)
    (by decide +kernel)]
  cases outcome with
  | none => exact hread
  | some missing => exact hread

theorem response_eq {a b c href ok more : Str}
    (ha : a = openTag (dav "response".toList) ++ openTag (dav "href".toList))
    (hb : b = closeTag (dav "href".toList)) (hc : c = closeTag (dav "response".toList)) :
    a ++ href ++ b ++ ok ++ more ++ c =
      tagged "response".toList (tagged "href".toList href ++ ok ++ more) := by
  subst ha hb hc
  simp only [tagged, List.append_assoc]

section

variable {P : Percent} {node : Node} {viewer : Viewer} {requested : Requested} {lock : Option Str}
  {e : Entry} {items more : List Item}

/-- A response whose parts are read. -/
theorem reads_response (hP : P.Documented) (hfound : Reads (found node viewer requested lock)
    (some items)) (hmissing : Reads (missing node viewer requested lock) (some more)) :
    Reads (response node viewer requested lock (e.href P))
      (some [el "response".toList (el "href".toList (txt (e.href P)) ::
        el "propstat".toList [el "prop".toList items, statusOk] ::
        if missing node viewer requested lock = [] then [] else [notFound more])]) := by
  have hhref : Reads (tagged "href".toList (escape (e.href P))) _ :=
    reads_tagged (by decide) (reads_href hP e.path _)
  unfold response
  rw [response_eq (by decide +kernel) (by decide +kernel) (by decide +kernel)]
  have htail : Reads (if missing node viewer requested lock = [] then []
      else "<D:propstat><D:prop>".toList ++ missing node viewer requested lock ++
        "</D:prop>             <D:status>HTTP/1.1 404 Not Found</D:status></D:propstat>".toList)
      (some (if missing node viewer requested lock = [] then [] else [notFound more])) := by
    split_ifs
    · exact yields_nil
    · exact reads_notFound hmissing
  exact reads_tagged (by decide) (yields_append (yields_append hhref (reads_ok hfound)) htail)

/-- A response with a value that is not text. -/
theorem reads_response_found (hP : P.Documented)
    (hfound : Reads (found node viewer requested lock) none) :
    Reads (response node viewer requested lock (e.href P)) none := by
  have hhref : Reads (tagged "href".toList (escape (e.href P))) _ :=
    reads_tagged (by decide) (reads_href hP e.path _)
  unfold response
  rw [response_eq (by decide +kernel) (by decide +kernel) (by decide +kernel)]
  exact @reads_tagged "response".toList _ none (by decide)
    (yields_none (yields_append hhref (reads_ok hfound)) _)

/-- A response with a name or a namespace that is none. -/
theorem reads_response_missing (hP : P.Documented)
    (hfound : Reads (found node viewer requested lock) outcome)
    (hmissing : Reads (missing node viewer requested lock) none)
    (hne : missing node viewer requested lock ≠ []) :
    Reads (response node viewer requested lock (e.href P)) none := by
  have hhref : Reads (tagged "href".toList (escape (e.href P))) _ :=
    reads_tagged (by decide) (reads_href hP e.path _)
  unfold response
  rw [response_eq (by decide +kernel) (by decide +kernel) (by decide +kernel), if_neg hne]
  have hread := @reads_tagged "response".toList _ _ (by decide)
    (yields_append (yields_append hhref (reads_ok hfound)) (reads_notFound hmissing))
  cases outcome with
  | none => exact hread
  | some found => exact hread

/-- What a property of an answer is read as, from what its lock is read as. -/
def shown (requested : Requested) (node : Node) (viewer : Viewer) (lock : Option Str)
    (locked : Option (List Item)) (property : Property) : Option (List Item) :=
  if requested.namesOnly then some [el property.name []]
  else if (value property node viewer lock).isSome then
    (kids property node viewer locked).map fun items => [el property.name items]
  else some []

theorem reads_found {locked : Option (List Item)} (hlock : Reads (lock.getD []) locked) :
    Reads (found node viewer requested lock)
      (collect (requested.properties.map (shown requested node viewer lock locked))) := by
  refine yields_flatMap fun property _ => ?_
  unfold shown
  split_ifs with hnames hsome
  · exact reads_property property
  · obtain ⟨text, htext⟩ := Option.isSome_iff_exists.mp hsome
    rw [htext, Option.getD_some]
    exact reads_value hlock htext
  · rw [Option.not_isSome_iff_eq_none.mp hsome]
    exact yields_nil

open Classical in
/-- What a property that is not kept is read as. -/
noncomputable def foreignOutcome (u : Unknown) : Option (List Item) :=
  if u.Sound then some [foreignItem u] else none

theorem reads_missing {letters : Letters}
    (h : ∀ u ∈ requested.unknown, isName letters u.name = true) :
    ∃ kept : List Item, Reads (missing node viewer requested lock)
      ((collect (requested.unknown.map foreignOutcome)).map (kept ++ ·)) := by
  have hkept : Reads (requested.properties.flatMap fun property =>
      if requested.namesOnly || (value property node viewer lock).isSome then []
      else bare property) (collect (requested.properties.map fun property =>
        some (if requested.namesOnly || (value property node viewer lock).isSome then []
          else [el property.name []]))) := by
    refine yields_flatMap fun property _ => ?_
    split_ifs
    · exact yields_nil
    · exact reads_property property
  have hforeign : Reads (requested.unknown.flatMap foreign)
      (collect (requested.unknown.map foreignOutcome)) := by
    refine yields_flatMap fun u hu => ?_
    obtain ⟨hsound, hnot⟩ := reads_foreign (h u hu)
    unfold foreignOutcome
    split_ifs with hu
    · exact hsound hu
    · exact hnot hu
  rw [collect_some fun property _ => rfl] at hkept
  exact ⟨_, yields_append hkept hforeign⟩

/-- What an entry's lock is read as, where it can be. -/
def lockShown (P : Percent) (e : Entry) : Option (List Item) :=
  match e.lock with
  | none => some []
  | some lock =>
    if (lock.holder.getD []).all isXmlChar then
      some [el "activelock".toList (lockItems P lock e.path e.node.kind)]
    else none

/-- What an entry shows of its lock. -/
theorem reads_lock (hP : P.Documented) (e : Entry) :
    Reads ((e.lockText P).getD []) (lockShown P e) := by
  unfold lockShown Entry.lockText
  cases e.lock with
  | none => exact yields_nil
  | some lock => exact reads_active hP lock e.path e.node.kind

end

/-! ## The answer -/

/-- A response that is the one an entry is to have: its href, and its name where that is asked for. -/
def Describes (P : Percent) (requested : Requested) (e : Entry) (item : Item) : Prop :=
  ∃ items more, item = el "response".toList (el "href".toList (txt (e.href P)) ::
      el "propstat".toList [el "prop".toList items, statusOk] :: more) ∧
    (∀ text, el "displayname".toList text ∈ items →
      requested.namesOnly = true ∨ text = txt e.node.name) ∧
    (requested.namesOnly = false → .displayName ∈ requested.properties →
      el "displayname".toList (txt e.node.name) ∈ items)

/-- **The document is an answer**: well-formed, and one response for each entry. -/
def Answers (P : Percent) (requested : Requested) (entries : List Entry) : Prop :=
  ∃ responses, read (document P requested entries) =
      some (.element ⟨dav "multistatus".toList, [("xmlns:".toList ++ "D".toList, DAV)]⟩ responses) ∧
    List.Forall₂ (Describes P requested) entries responses

/-- What an entry and a request put in a document is text, names and namespaces it may hold. -/
structure Holdable (requested : Requested) (e : Entry) : Prop where
  name : requested.namesOnly = false → .displayName ∈ requested.properties →
    e.node.name.all isXmlChar = true
  holder : requested.namesOnly = false → .lockDiscovery ∈ requested.properties →
    ∀ lock ∈ e.lock, ∀ holder ∈ lock.holder, holder.all isXmlChar = true
  unknown : ∀ u ∈ requested.unknown, u.Sound

theorem foreign_ne_nil (u : Unknown) : foreign u ≠ [] := by
  unfold foreign
  split_ifs <;> simp

variable {P : Percent} {requested : Requested} {e : Entry}

theorem el_injective {a b : Str} {x y : List Item} (h : el a x = el b y) : a = b ∧ x = y := by
  unfold el dav at h
  injection h with htag hitems
  injection htag with hname
  exact ⟨(List.cons.inj (List.append_cancel_left hname)).2, hitems⟩

/-- A property whose name or lock can be read has something to show. -/
theorem kids_isSome {property : Property} {node : Node} {viewer : Viewer}
    {locked : Option (List Item)} (hname : property = .displayName → node.name.all isXmlChar = true)
    (hlock : property = .lockDiscovery → locked.isSome = true) :
    (kids property node viewer locked).isSome = true := by
  cases property with
  | displayName =>
    unfold kids
    rw [if_pos (hname rfl)]
    rfl
  | lockDiscovery => exact hlock rfl
  | resourceType =>
    unfold kids
    cases node.kind <;> rfl
  | contentType =>
    unfold kids
    cases node.kind <;> rfl
  | _ => rfl

theorem lockShown_isSome (P : Percent)
    (h : ∀ lock ∈ e.lock, ∀ holder ∈ lock.holder, holder.all isXmlChar = true) :
    (lockShown P e).isSome = true := by
  unfold lockShown
  cases hlock : e.lock with
  | none => rfl
  | some lock =>
    have hall : (lock.holder.getD []).all isXmlChar = true := by
      cases hholder : lock.holder with
      | none => rfl
      | some holder => exact h lock hlock holder hholder
    dsimp only
    rw [if_pos hall]
    rfl

/-- What an entry shows of a property. -/
def shownItems (P : Percent) (requested : Requested) (e : Entry) (property : Property) : List Item :=
  if requested.namesOnly then [el property.name []]
  else if (value property e.node e.viewer (e.lockText P)).isSome then
    [el property.name ((kids property e.node e.viewer (lockShown P e)).getD [])]
  else []

theorem shown_eq_some (P : Percent) (hgood : Holdable requested e) {property : Property}
    (hproperty : property ∈ requested.properties) :
    shown requested e.node e.viewer (e.lockText P) (lockShown P e) property =
      some (shownItems P requested e property) := by
  unfold shown shownItems
  split_ifs with hnames hsome
  · rfl
  · have hnames : requested.namesOnly = false := Bool.eq_false_iff.mpr hnames
    have hkids := @kids_isSome property e.node e.viewer (lockShown P e)
      (fun heq => hgood.name hnames (heq ▸ hproperty))
      (fun heq => lockShown_isSome P (hgood.holder hnames (heq ▸ hproperty)))
    obtain ⟨kids, hkids⟩ := Option.isSome_iff_exists.mp hkids
    rw [hkids]
    rfl
  · rfl

/-- What is shown under the name of a property is what the property holds. -/
theorem shownItems_displayName (P : Percent) (hgood : Holdable requested e) {property : Property}
    (hproperty : property ∈ requested.properties) {text : List Item}
    (h : el "displayname".toList text ∈ shownItems P requested e property) :
    requested.namesOnly = true ∨ text = txt e.node.name := by
  unfold shownItems at h
  split_ifs at h with hnames hsome
  · exact Or.inl hnames
  · obtain ⟨hname, htext⟩ := el_injective (List.mem_singleton.mp h)
    have heq : property = .displayName := Property.name_injective hname.symm
    subst heq
    refine Or.inr (htext.trans ?_)
    unfold kids
    rw [if_pos (hgood.name (Bool.eq_false_iff.mpr hnames) hproperty)]
    rfl
  · exact absurd h List.not_mem_nil

/-- An entry that a document can hold is read as its response. -/
theorem reads_entry (hP : P.Documented) {letters : Letters}
    (h : ∀ u ∈ requested.unknown, isName letters u.name = true) (hgood : Holdable requested e) :
    ∃ item, Describes P requested e item ∧
      Reads (response e.node e.viewer requested (e.lockText P) (e.href P)) (some [item]) := by
  have hfound := @reads_found e.node e.viewer requested _ _ (reads_lock hP e)
  rw [collect_some fun property hproperty => shown_eq_some P hgood hproperty] at hfound
  obtain ⟨kept, hmissing⟩ := @reads_missing e.node e.viewer requested (e.lockText P) letters h
  have hforeign : ∀ u ∈ requested.unknown, foreignOutcome u = some [foreignItem u] :=
    fun u hu => if_pos (hgood.unknown u hu)
  rw [collect_some hforeign] at hmissing
  refine ⟨_, ⟨_, _, rfl, fun text htext => ?_, fun hnames hproperty => ?_⟩,
    reads_response hP hfound hmissing⟩
  · obtain ⟨property, hproperty, htext⟩ := List.mem_flatMap.mp htext
    exact shownItems_displayName P hgood hproperty htext
  · refine List.mem_flatMap.mpr ⟨.displayName, hproperty, ?_⟩
    unfold shownItems kids
    rw [hnames, if_pos (hgood.name hnames hproperty)]
    exact List.mem_singleton_self _

/-- An entry that a document cannot hold ends the reading. -/
theorem reads_entry_bad (hP : P.Documented) {letters : Letters}
    (h : ∀ u ∈ requested.unknown, isName letters u.name = true) (hbad : ¬ Holdable requested e) :
    Reads (response e.node e.viewer requested (e.lockText P) (e.href P)) none := by
  have hfound := @reads_found e.node e.viewer requested _ _ (reads_lock hP e)
  have hproperty {property : Property} (hmem : property ∈ requested.properties)
      (hnone : shown requested e.node e.viewer (e.lockText P) (lockShown P e) property = none) :
      Reads (response e.node e.viewer requested (e.lockText P) (e.href P)) none := by
    rw [collect_none hmem hnone] at hfound
    exact reads_response_found hP hfound
  by_contra hread
  refine hbad ⟨fun hnames hmem => ?_, fun hnames hmem lock hlock holder hholder => ?_,
    fun u hu => ?_⟩
  · by_contra hchars
    refine hread (hproperty hmem ?_)
    unfold shown value kids
    rw [hnames, if_neg hchars]
    rfl
  · by_contra hchars
    refine hread (hproperty hmem ?_)
    unfold shown value kids lockShown
    rw [hnames, Option.mem_def.mp hlock]
    dsimp only
    rw [Option.mem_def.mp hholder, Option.getD_some, if_neg hchars]
    rfl
  · by_contra hsound
    obtain ⟨kept, hmissing⟩ := @reads_missing e.node e.viewer requested (e.lockText P) letters h
    have hnone : foreignOutcome u = none := if_neg hsound
    rw [collect_none hu hnone] at hmissing
    refine hread (reads_response_missing hP hfound hmissing fun hnil => ?_)
    have hforeign := (List.append_eq_nil_iff.mp hnil).2
    exact foreign_ne_nil u (List.flatMap_eq_nil_iff.mp hforeign u hu)

theorem read_multistatus {content : Str} {outcome : Option (List Item)} (h : Reads content outcome) :
    read (MULTISTATUS_OPEN ++ content ++ MULTISTATUS_CLOSE) = outcome.map fun items =>
      .element ⟨dav "multistatus".toList, [("xmlns:".toList ++ "D".toList, DAV)]⟩ items := by
  have hopen : MULTISTATUS_OPEN = DECLARATION ++ ('<' :: ("D".toList ++ ':' :: "multistatus".toList)
      ++ declares "D".toList ++ escape DAV ++ "\">".toList) := by decide +kernel
  have hclose : MULTISTATUS_CLOSE = closeTag ("D".toList ++ ':' :: "multistatus".toList) := by
    decide +kernel
  have hvalue : Means (escape DAV) (some DAV) := by
    have hmeans := means_escape DAV
    rw [if_pos (by decide)] at hmeans
    exact hmeans
  rw [hopen, hclose]
  exact read_document (by decide) (by decide) (by decide) (by decide) hvalue (by decide +kernel) h

/-- A document is an answer where it can hold each of its entries. -/
theorem answers_iff_holdable (hP : P.Documented) {letters : Letters}
    (hunknown : ∀ u ∈ requested.unknown, isName letters u.name = true) (entries : List Entry) :
    Answers P requested entries ↔ ∀ e ∈ entries, Holdable requested e := by
  constructor
  · rintro ⟨responses, hread, -⟩ e he
    by_contra hbad
    classical
    have hall : ∀ e ∈ entries, ∃ o, Reads
        (response e.node e.viewer requested (e.lockText P) (e.href P)) o ∧
          (¬ Holdable requested e → o = none) := by
      intro e _
      by_cases hgood : Holdable requested e
      · obtain ⟨item, -, hitem⟩ := reads_entry hP hunknown hgood
        exact ⟨_, hitem, fun hnot => absurd hgood hnot⟩
      · exact ⟨_, reads_entry_bad hP hunknown hgood, fun _ => rfl⟩
    choose! outcome houtcome hnone using hall
    have hcontent := yields_flatMap houtcome
    rw [collect_none he (hnone e he hbad)] at hcontent
    rw [document, read_multistatus hcontent] at hread
    cases hread
  · intro hgood
    have hall : ∀ e ∈ entries, ∃ item, Describes P requested e item ∧
        Reads (response e.node e.viewer requested (e.lockText P) (e.href P)) (some [item]) :=
      fun e he => reads_entry hP hunknown (hgood e he)
    choose! item hdescribes hitem using hall
    have hcontent := yields_flatMap hitem
    rw [collect_some fun e _ => rfl] at hcontent
    refine ⟨entries.flatMap fun e => [item e], ?_, ?_⟩
    · rw [document, read_multistatus hcontent]
      rfl
    · rw [← List.map_eq_flatMap, List.forall₂_map_right_iff, List.forall₂_same]
      exact hdescribes

/-- **When the answer is well-formed**: the names it shows, the holders of the locks it shows and the
properties it does not keep are text, names and namespaces a document may hold. -/
theorem multistatus_iff (hP : P.Documented) (letters : Letters) (body : Option (List Event))
    (entries : List Entry) : Answers P (parse letters body) entries ↔
      ∀ e ∈ entries, Holdable (parse letters body) e :=
  answers_iff_holdable hP (parse_unknown body) entries

/-- The letters of ASCII. -/
def asciiLetters : Letters where
  alphabetic := Char.isAlpha
  alphanumeric := Char.isAlphanum
  alphabetic_alphanumeric c h := by rw [Char.isAlphanum, h, Bool.true_or]
  ascii _ _ := rfl

/-- A file as an answer shows it, with nothing of its own but its name. -/
def shownFile (name : Str) : Node :=
  ⟨name, .file, 6, ⟨"0123456789abcdef".toList, by decide⟩,
    ⟨"Tue, 01 Jul 2025 10:00:00 GMT".toList, by decide⟩⟩

/-- The answer for a file whose name looks like markup. -/
theorem multistatus_iff_markup : Answers Percent.plain (parse asciiLetters none)
    [⟨[⟨"<a>&\"b'.txt".toList, by decide⟩], shownFile "<a>&\"b'.txt".toList, ⟨6, 94, true⟩, none⟩] := by
  refine (multistatus_iff Percent.plain_documented asciiLetters none _).mpr fun e he => ?_
  rw [List.mem_singleton.mp he]
  refine ⟨fun _ _ => by decide, fun _ _ lock hlock => ?_, fun u hu => ?_⟩
  · cases hlock
  · cases hu

/-- A name may hold what no document may. -/
theorem not_answers_noncharacter : NodeName.check ['\uFFFE'] = none ∧
    ¬ Answers Percent.plain (parse asciiLetters none)
      [⟨[⟨['\uFFFE'], by decide⟩], shownFile ['\uFFFE'], ⟨6, 94, true⟩, none⟩] := by
  refine ⟨by decide, fun hanswers => ?_⟩
  have hgood := (answers_iff_holdable Percent.plain_documented
    (@parse_unknown asciiLetters none) _).mp hanswers _ (List.mem_singleton_self _)
  exact absurd (hgood.name rfl (by decide)) (by decide)

end Stashden.Dav
