import Mathlib.Tactic

/-!
# Absolute URIs

The syntax of an absolute URI, under the names its rules have: a percent sign begins an escape, and
brackets stand around the address of a host alone.

`AbsoluteUri.ofUri` and `PathReference.ofUri` say what the texts are made of that the rules derive.
-/

namespace Stashden.Lib.Uri

/-- `HEXDIG`. -/
def isHexDigit (c : Char) : Bool := c.isDigit || decide (c ∈ "abcdefABCDEF".toList)

/-- `unreserved`. -/
def isUnreserved (c : Char) : Bool := c.isAlphanum || decide (c ∈ "-._~".toList)

/-- `sub-delims`. -/
def isSubDelim (c : Char) : Bool := decide (c ∈ "!$&'()*+,;=".toList)

/-- What a registered name has unescaped. -/
def isNameChar (c : Char) : Bool := isUnreserved c || isSubDelim c

/-- What user information has unescaped, and an address of a later version. -/
def isUserChar (c : Char) : Bool := isNameChar c || decide (c = ':')

/-- What a path has unescaped: `pchar`, and what parts its segments. -/
def isPathChar (c : Char) : Bool := isUserChar c || decide (c = '@') || decide (c = '/')

/-- What a query has unescaped. -/
def isQueryChar (c : Char) : Bool := isPathChar c || decide (c = '?')

/-- `*( allowed / pct-encoded )`. -/
inductive Chars (allowed : Char → Bool) : List Char → Prop
  | nil : Chars allowed []
  | plain {c : Char} {rest : List Char} (hc : allowed c = true) (hrest : Chars allowed rest) :
    Chars allowed (c :: rest)
  | escape {a b : Char} {rest : List Char} (ha : isHexDigit a = true) (hb : isHexDigit b = true)
    (hrest : Chars allowed rest) : Chars allowed ('%' :: a :: b :: rest)

/-- `scheme`. -/
def isScheme : List Char → Bool
  | [] => false
  | c :: rest => c.isAlpha && rest.all fun c => c.isAlphanum || decide (c ∈ "+-.".toList)

/-- `h16`. -/
def IsPiece (text : List Char) : Prop :=
  1 ≤ text.length ∧ text.length ≤ 4 ∧ text.all isHexDigit = true

/-- `dec-octet`. -/
def IsOctet (text : List Char) : Prop := ∃ n < 256, text = Nat.toDigits 10 n

/-- `IPv4address`. -/
def IsIPv4 (text : List Char) : Prop :=
  ∃ a b c d, IsOctet a ∧ IsOctet b ∧ IsOctet c ∧ IsOctet d ∧
    text = a ++ '.' :: b ++ '.' :: c ++ '.' :: d

/-- Pieces with a colon between any two. -/
def colons (pieces : List (List Char)) : List Char := [':'].intercalate pieces

/-- `IPv6address`: eight pieces, the last two of which may be written as four octets, and one run of
zeros may be left out. -/
inductive IPv6 : List Char → Prop
  | full {pieces : List (List Char)} (hlen : pieces.length = 8) (h : ∀ p ∈ pieces, IsPiece p) :
    IPv6 (colons pieces)
  | fullOctets {pieces : List (List Char)} {last : List Char} (hlen : pieces.length = 6)
    (h : ∀ p ∈ pieces, IsPiece p) (hlast : IsIPv4 last) : IPv6 (colons (pieces ++ [last]))
  | short {left right : List (List Char)} (hlen : left.length + right.length ≤ 7)
    (hl : ∀ p ∈ left, IsPiece p) (hr : ∀ p ∈ right, IsPiece p) :
    IPv6 (colons left ++ ':' :: ':' :: colons right)
  | shortOctets {left right : List (List Char)} {last : List Char}
    (hlen : left.length + right.length ≤ 5) (hl : ∀ p ∈ left, IsPiece p)
    (hr : ∀ p ∈ right, IsPiece p) (hlast : IsIPv4 last) :
    IPv6 (colons left ++ ':' :: ':' :: colons (right ++ [last]))

/-- `host`; an `IPv4address` is a registered name too. -/
inductive Host : List Char → Prop
  | name {text : List Char} (h : Chars isNameChar text) : Host text
  | v6 {text : List Char} (h : IPv6 text) : Host ('[' :: text ++ [']'])
  | future {v : Char} {version address : List Char} (hv : v = 'v' ∨ v = 'V') (hversion : version ≠ [])
    (hhex : version.all isHexDigit = true) (haddress : address ≠ [])
    (hchars : address.all isUserChar = true) :
    Host ('[' :: v :: version ++ '.' :: address ++ [']'])

/-- `[ userinfo "@" ]`. -/
def UserPart (text : List Char) : Prop :=
  text = [] ∨ ∃ user, Chars isUserChar user ∧ text = user ++ ['@']

/-- `[ ":" port ]`. -/
def PortPart (text : List Char) : Prop :=
  text = [] ∨ ∃ port, port.all Char.isDigit = true ∧ text = ':' :: port

/-- `[ "?" query ]`. -/
def QueryPart (text : List Char) : Prop :=
  text = [] ∨ ∃ query, Chars isQueryChar query ∧ text = '?' :: query

/-- `authority`. -/
def Authority (text : List Char) : Prop :=
  ∃ user host port, UserPart user ∧ Host host ∧ PortPart port ∧ text = user ++ host ++ port

/-- `hier-part`. -/
inductive HierPart : List Char → Prop
  | authority {authority path : List Char} (ha : Authority authority) (hp : Chars isPathChar path)
    (hslash : path = [] ∨ path.head? = some '/') : HierPart ('/' :: '/' :: authority ++ path)
  | path {path : List Char} (hp : Chars isPathChar path) (hslash : ¬ ['/', '/'] <+: path) :
    HierPart path

/-- `absolute-URI`. -/
def AbsoluteUri (text : List Char) : Prop :=
  ∃ scheme hier query, isScheme scheme = true ∧ HierPart hier ∧ QueryPart query ∧
    text = scheme ++ ':' :: hier ++ query

/-- `path-absolute [ "?" query ]`. -/
def PathReference (text : List Char) : Prop :=
  ∃ path query, Chars isPathChar path ∧ path.head? = some '/' ∧ ¬ ['/', '/'] <+: path ∧
    QueryPart query ∧ text = path ++ query

/-! ## The characters of a URI -/

/-- What stands in a URI, escapes and addresses included. -/
def isUriChar (c : Char) : Bool := isQueryChar c || decide (c ∈ "%[]".toList)

/-- All of it stands in a URI. -/
def OfUri (text : List Char) : Prop := ∀ c ∈ text, isUriChar c = true

variable {text a b : List Char} {allowed : Char → Bool}

@[simp] theorem ofUri_nil : OfUri [] := fun _ h => absurd h List.not_mem_nil

@[simp] theorem ofUri_cons {c : Char} : OfUri (c :: text) ↔ isUriChar c = true ∧ OfUri text :=
  List.forall_mem_cons

@[simp] theorem ofUri_append : OfUri (a ++ b) ↔ OfUri a ∧ OfUri b := List.forall_mem_append

theorem uriChar_of_query {c : Char} (h : isQueryChar c = true) : isUriChar c = true := by
  rw [isUriChar, h, Bool.true_or]

theorem query_of_path {c : Char} (h : isPathChar c = true) : isQueryChar c = true := by
  rw [isQueryChar, h, Bool.true_or]

theorem query_of_user {c : Char} (h : isUserChar c = true) : isQueryChar c = true := by
  refine query_of_path ?_
  rw [isPathChar, h, Bool.true_or, Bool.true_or]

theorem query_of_name {c : Char} (h : isNameChar c = true) : isQueryChar c = true := by
  refine query_of_user ?_
  rw [isUserChar, h, Bool.true_or]

theorem query_of_alphanum {c : Char} (h : c.isAlphanum = true) : isQueryChar c = true := by
  refine query_of_name ?_
  rw [isNameChar, isUnreserved, h, Bool.true_or, Bool.true_or]

theorem query_of_digit {c : Char} (h : c.isDigit = true) : isQueryChar c = true := by
  refine query_of_alphanum ?_
  rw [Char.isAlphanum, h, Bool.or_true]

theorem query_of_hexDigit {c : Char} (h : isHexDigit c = true) : isQueryChar c = true := by
  rcases Bool.or_eq_true_iff.mp h with h | h
  · exact query_of_digit h
  · have hall : "abcdefABCDEF".toList.all isQueryChar = true := by decide
    exact List.all_eq_true.mp hall c (of_decide_eq_true h)

theorem Chars.ofUri (hallowed : ∀ {c}, allowed c = true → isQueryChar c = true)
    (h : Chars allowed text) : OfUri text := by
  induction h with
  | nil => exact ofUri_nil
  | plain hc _ ih => exact ofUri_cons.mpr ⟨uriChar_of_query (hallowed hc), ih⟩
  | escape ha hb _ ih =>
    exact ofUri_cons.mpr ⟨by decide, ofUri_cons.mpr ⟨uriChar_of_query (query_of_hexDigit ha),
      ofUri_cons.mpr ⟨uriChar_of_query (query_of_hexDigit hb), ih⟩⟩⟩

theorem ofUri_of_all (hallowed : ∀ {c}, allowed c = true → isQueryChar c = true)
    (h : text.all allowed = true) : OfUri text := fun c hc =>
  uriChar_of_query (hallowed (List.all_eq_true.mp h c hc))

theorem ofUri_of_scheme (h : isScheme text = true) : OfUri text := by
  cases text with
  | nil => exact ofUri_nil
  | cons c rest =>
    obtain ⟨hc, hrest⟩ := Bool.and_eq_true_iff.mp h
    refine ofUri_cons.mpr ⟨uriChar_of_query (query_of_alphanum ?_), ofUri_of_all ?_ hrest⟩
    · rw [Char.isAlphanum, hc, Bool.true_or]
    · intro c hc
      rcases Bool.or_eq_true_iff.mp hc with hc | hc
      · exact query_of_alphanum hc
      · have hall : "+-.".toList.all isQueryChar = true := by decide
        exact List.all_eq_true.mp hall c (of_decide_eq_true hc)

theorem ofUri_of_octet (h : IsOctet text) : OfUri text := by
  obtain ⟨n, -, rfl⟩ := h
  exact fun c hc => uriChar_of_query
    (query_of_digit (Nat.isDigit_of_mem_toDigits (by decide) (by decide) hc))

theorem ofUri_of_ipv4 (h : IsIPv4 text) : OfUri text := by
  obtain ⟨a, b, c, d, ha, hb, hc, hd, rfl⟩ := h
  have hdot : isUriChar '.' = true := by decide
  simp [ofUri_of_octet ha, ofUri_of_octet hb, ofUri_of_octet hc, ofUri_of_octet hd, hdot]

theorem ofUri_colons {pieces : List (List Char)} (h : ∀ p ∈ pieces, OfUri p) :
    OfUri (colons pieces) := by
  induction pieces with
  | nil => exact ofUri_nil
  | cons p pieces ih =>
    obtain ⟨hp, hrest⟩ := List.forall_mem_cons.mp h
    cases pieces with
    | nil =>
      rw [colons, List.intercalate_singleton]
      exact hp
    | cons q pieces =>
      have hcolon : OfUri [':'] := ofUri_cons.mpr ⟨by decide, ofUri_nil⟩
      rw [colons, List.intercalate_cons_cons]
      exact ofUri_append.mpr ⟨ofUri_append.mpr ⟨hp, hcolon⟩, ih hrest⟩

theorem ofUri_of_piece (h : IsPiece text) : OfUri text := ofUri_of_all query_of_hexDigit h.2.2

theorem IPv6.ofUri (h : IPv6 text) : OfUri text := by
  have hcolon : isUriChar ':' = true := by decide
  have hlast : ∀ {pieces : List (List Char)} {last}, (∀ p ∈ pieces, IsPiece p) → IsIPv4 last →
      OfUri (colons (pieces ++ [last])) := fun hp hl =>
    ofUri_colons (List.forall_mem_append.mpr ⟨fun p hmem => ofUri_of_piece (hp p hmem), fun p hmem =>
      List.mem_singleton.mp hmem ▸ ofUri_of_ipv4 hl⟩)
  have hpieces : ∀ {pieces : List (List Char)}, (∀ p ∈ pieces, IsPiece p) → OfUri (colons pieces) :=
    fun hp => ofUri_colons fun p hmem => ofUri_of_piece (hp p hmem)
  cases h with
  | full _ h => exact hpieces h
  | fullOctets _ h hl => exact hlast h hl
  | short _ hl hr =>
    exact ofUri_append.mpr ⟨hpieces hl, ofUri_cons.mpr ⟨hcolon, ofUri_cons.mpr ⟨hcolon, hpieces hr⟩⟩⟩
  | shortOctets _ hl hr hv4 =>
    exact ofUri_append.mpr ⟨hpieces hl, ofUri_cons.mpr ⟨hcolon, ofUri_cons.mpr ⟨hcolon, hlast hr hv4⟩⟩⟩

theorem Host.ofUri (h : Host text) : OfUri text := by
  have hopen : isUriChar '[' = true := by decide
  have hclose : isUriChar ']' = true := by decide
  cases h with
  | name h => exact h.ofUri query_of_name
  | v6 h => simp [h.ofUri, hopen, hclose]
  | @future v version address hv _ hhex _ hchars =>
    have hletter : isUriChar v = true := by
      rcases hv with rfl | rfl <;> decide
    have hdot : isUriChar '.' = true := by decide
    simp [ofUri_of_all query_of_hexDigit hhex, ofUri_of_all query_of_user hchars, hopen, hclose,
      hletter, hdot]

theorem QueryPart.ofUri (h : QueryPart text) : OfUri text := by
  obtain rfl | ⟨query, hquery, rfl⟩ := h
  · exact ofUri_nil
  · exact ofUri_cons.mpr ⟨by decide, hquery.ofUri id⟩

theorem Authority.ofUri (h : Authority text) : OfUri text := by
  obtain ⟨user, host, port, huser, hhost, hport, rfl⟩ := h
  refine ofUri_append.mpr ⟨ofUri_append.mpr ⟨?_, hhost.ofUri⟩, ?_⟩
  · obtain rfl | ⟨u, hu, rfl⟩ := huser
    · exact ofUri_nil
    · exact ofUri_append.mpr ⟨hu.ofUri query_of_user, ofUri_cons.mpr ⟨by decide, ofUri_nil⟩⟩
  · obtain rfl | ⟨p, hp, rfl⟩ := hport
    · exact ofUri_nil
    · exact ofUri_cons.mpr ⟨by decide, ofUri_of_all query_of_digit hp⟩

theorem HierPart.ofUri (h : HierPart text) : OfUri text := by
  have hslash : isUriChar '/' = true := by decide
  cases h with
  | authority ha hp =>
    exact ofUri_cons.mpr ⟨hslash, ofUri_cons.mpr ⟨hslash,
      ofUri_append.mpr ⟨ha.ofUri, hp.ofUri query_of_path⟩⟩⟩
  | path hp => exact hp.ofUri query_of_path

/-- **What an absolute URI is made of.** -/
theorem AbsoluteUri.ofUri (h : AbsoluteUri text) : OfUri text := by
  obtain ⟨scheme, hier, query, hscheme, hhier, hquery, rfl⟩ := h
  exact ofUri_append.mpr ⟨ofUri_append.mpr ⟨ofUri_of_scheme hscheme,
    ofUri_cons.mpr ⟨by decide, hhier.ofUri⟩⟩, hquery.ofUri⟩

theorem PathReference.ofUri (h : PathReference text) : OfUri text := by
  obtain ⟨path, query, hpath, -, -, hquery, rfl⟩ := h
  exact ofUri_append.mpr ⟨hpath.ofUri query_of_path, hquery.ofUri⟩

end Stashden.Lib.Uri
