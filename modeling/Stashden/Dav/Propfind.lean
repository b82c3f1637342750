import Stashden.Core.Name

/-!
# What a PROPFIND asks for (`api/src/dav/propfind.rs`, `xml.rs`)

The body is what the XML reader reports of it (`Event`): names without their prefixes, the namespace a
prefix is bound to, and where the reader gave up. What a letter is comes from the tables of `char`
(`Letters`), of which only what they say of ASCII is used.

`parse_unknown` is what the answer relies on: a property that is not kept is remembered under a name
that `is_name` lets through.
-/

namespace Stashden.Dav

/-- `Property`. -/
inductive Property where
  | contentLength
  | lastModified
  | etag
  | resourceType
  | displayName
  | contentType
  | quotaAvailable
  | quotaUsed
  | lockDiscovery
  | supportedLock
  | currentUserPrivilegeSet
  deriving DecidableEq

namespace Property

/-- `Property::name`. -/
def name : Property → Str
  | contentLength => "getcontentlength".toList
  | lastModified => "getlastmodified".toList
  | etag => "getetag".toList
  | resourceType => "resourcetype".toList
  | displayName => "displayname".toList
  | contentType => "getcontenttype".toList
  | quotaAvailable => "quota-available-bytes".toList
  | quotaUsed => "quota-used-bytes".toList
  | lockDiscovery => "lockdiscovery".toList
  | supportedLock => "supportedlock".toList
  | currentUserPrivilegeSet => "current-user-privilege-set".toList

/-- `Property::ALL`. -/
def ALL : List Property :=
  [resourceType, displayName, contentLength, contentType, lastModified, etag, quotaAvailable,
    quotaUsed, lockDiscovery, supportedLock]

/-- `Property::parse`. -/
def parse (text : Str) : Option Property :=
  (ALL ++ [currentUserPrivilegeSet]).find? fun property => decide (property.name = text)

/-- A property is the one its name parses to. -/
theorem parse_name (property : Property) : parse property.name = some property := by
  cases property <;> decide

theorem name_injective {p q : Property} (h : p.name = q.name) : p = q := by
  have hp := parse_name p
  rw [h, parse_name q] at hp
  exact (Option.some.inj hp).symm

end Property

/-- `Unknown`. -/
structure Unknown where
  nameSpace : Str
  name : Str
  deriving DecidableEq

/-- `Requested`. -/
structure Requested where
  properties : List Property
  unknown : List Unknown
  namesOnly : Bool
  deriving DecidableEq

/-- `Requested::everything`. -/
def Requested.everything : Requested := ⟨Property.ALL, [], false⟩

def DAV : Str := "DAV:".toList

/-- What the XML reader reports: the start of an element or an empty one, with the namespace its prefix
is bound to where it is; the end of one; anything else; or an error. -/
inductive Event where
  | start (bound : Option Str) (localName : Str)
  | stop (localName : Str)
  | other
  | error

/-- `char::is_alphabetic` and `char::is_alphanumeric`. -/
structure Letters where
  alphabetic : Char → Bool
  alphanumeric : Char → Bool
  alphabetic_alphanumeric : ∀ c, alphabetic c = true → alphanumeric c = true
  ascii : ∀ c, c.toNat < 0x80 → alphanumeric c = c.isAlphanum

variable (letters : Letters)

/-- `is_name`. -/
def isName : Str → Bool
  | [] => false
  | first :: rest =>
    (letters.alphabetic first || decide (first = '_')) &&
      rest.all fun c => letters.alphanumeric c || decide (c ∈ ['.', '-', '_'])

/-- What an element inside `prop` adds. -/
def Requested.ask (requested : Requested) (bound : Option Str) (name : Str) : Requested :=
  match (Property.parse name).filter fun _ => bound.getD [] = DAV with
  | some property => { requested with properties := requested.properties ++ [property] }
  | none =>
    if isName letters name then
      { requested with unknown := requested.unknown ++ [⟨bound.getD [], name⟩] }
    else requested

/-- The loop of `parse`. -/
def parseLoop : List Event → Bool → Requested → Requested
  | [], _, requested =>
    if requested.properties.isEmpty && requested.unknown.isEmpty then .everything else requested
  | .start bound name :: events, insideProp, requested =>
    if name = "allprop".toList then .everything
    else if name = "propname".toList then { Requested.everything with namesOnly := true }
    else if name = "prop".toList then parseLoop events true requested
    else if insideProp then parseLoop events insideProp (requested.ask letters bound name)
    else parseLoop events insideProp requested
  | .stop name :: events, insideProp, requested =>
    parseLoop events (if name = "prop".toList then false else insideProp) requested
  | .other :: events, insideProp, requested => parseLoop events insideProp requested
  | .error :: _, _, _ => .everything

/-- `parse`, of a body that is blank or what the reader reports of it. -/
def parse (body : Option (List Event)) : Requested :=
  match body with
  | none => .everything
  | some events => parseLoop letters events false ⟨[], [], false⟩

variable {letters}

theorem ask_unknown {requested : Requested} (bound : Option Str) (name : Str)
    (h : ∀ u ∈ requested.unknown, isName letters u.name = true) :
    ∀ u ∈ (requested.ask letters bound name).unknown, isName letters u.name = true := by
  unfold Requested.ask
  split
  · exact h
  · split_ifs with hname
    · intro u hu
      rcases List.mem_append.mp hu with hu | hu
      · exact h u hu
      · rw [List.mem_singleton.mp hu]
        exact hname
    · exact h

theorem parseLoop_unknown (events : List Event) {insideProp : Bool} {requested : Requested}
    (h : ∀ u ∈ requested.unknown, isName letters u.name = true) :
    ∀ u ∈ (parseLoop letters events insideProp requested).unknown, isName letters u.name = true := by
  induction events generalizing insideProp requested with
  | nil =>
    unfold parseLoop
    split_ifs
    · exact fun u hu => absurd hu List.not_mem_nil
    · exact h
  | cons event events ih =>
    cases event with
    | start bound name =>
      unfold parseLoop
      split_ifs
      · exact fun u hu => absurd hu List.not_mem_nil
      · exact fun u hu => absurd hu List.not_mem_nil
      · exact ih h
      · exact ih (ask_unknown bound name h)
      · exact ih h
    | stop name => exact ih h
    | other => exact ih h
    | error => exact fun u hu => absurd hu List.not_mem_nil

/-- **What is remembered under a name is remembered under one that `is_name` lets through.** -/
theorem parse_unknown (body : Option (List Event)) :
    ∀ u ∈ (parse letters body).unknown, isName letters u.name = true := by
  cases body with
  | none => exact fun u hu => absurd hu List.not_mem_nil
  | some events => exact parseLoop_unknown events fun u hu => absurd hu List.not_mem_nil

end Stashden.Dav
