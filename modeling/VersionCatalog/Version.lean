import VersionCatalog.Instant.Text
import VersionCatalog.Json.Shape
import VersionCatalog.Naming

/-!
# Versions

One point in the history of an item. What is stored of a version is its `Content`; a `Version`, as a
store hands it out, may also say how the caller's copy stands to the shared one (`CopyState`).
A version's life goes one way, from draft to certified.
-/

namespace VersionCatalog

/-- Where a version is in its life. -/
inductive VersionStatus where
  | draft
  | certified
  deriving DecidableEq

namespace VersionStatus

/-- The word for a status. -/
def name : VersionStatus → String
  | draft => "Draft"
  | certified => "Certified"

/-- The status that a word names. -/
def ofName? : String → Option VersionStatus
  | "Draft" => some draft
  | "Certified" => some certified
  | _ => none

@[simp] theorem ofName?_name (s : VersionStatus) : ofName? s.name = some s := by
  cases s <;> rfl

/-- Whether a version may go from one status to another: only forward. -/
def canBecome : VersionStatus → VersionStatus → Bool
  | draft, certified => true
  | _, _ => false

end VersionStatus

/-- How a user's copy of a version stands to the shared one. -/
inductive SyncState where
  /-- The copy was made from the latest shared revision. -/
  | upToDate
  /-- There is a later shared revision. -/
  | outOfSync
  /-- There is a later shared revision, and the copy has edits of its own. -/
  | merging
  deriving DecidableEq

namespace SyncState

/-- The word for a state in documents. -/
def name : SyncState → String
  | upToDate => "UpToDate"
  | outOfSync => "OutOfSync"
  | merging => "Merging"

/-- The state that a word names. -/
def ofName? : String → Option SyncState
  | "UpToDate" => some upToDate
  | "OutOfSync" => some outOfSync
  | "Merging" => some merging
  | _ => none

@[simp] theorem ofName?_name (s : SyncState) : ofName? s.name = some s := by
  cases s <;> rfl

/-- The phrase for a state. -/
def phrase : SyncState → String
  | upToDate => "Up to date"
  | outOfSync => "Out of sync"
  | merging => "Merging"

end SyncState

/-- What a store says about the caller's copy of a version. -/
structure CopyState where
  sync : SyncState
  /-- Whether the copy has edits that were not published. -/
  dirty : Bool
  deriving DecidableEq

namespace CopyState

/-- Whether the copy is behind the shared one. -/
def isOutOfSync (s : CopyState) : Bool :=
  s.sync == .outOfSync

/-- The document of a state. -/
def toJson (s : CopyState) : Json :=
  .record [("synchronization_state", .text s.sync.name), ("dirty", .bool s.dirty)]

/-- The state that a document holds. -/
def ofJson? (j : Json) : Option CopyState := do
  let fs ← j.fields? ["synchronization_state", "dirty"]
  let sync ← fs.required "synchronization_state" (Json.word? SyncState.ofName?)
  let dirty ← fs.required "dirty" Json.bool?
  return ⟨sync, dirty⟩

end CopyState

namespace Instant

/-- The document of a time that may be missing. -/
def toJson (t : Option Instant) : Json :=
  Json.textOrNull (t.map toText)

/-- The time that a document holds. -/
def ofJson? : Json → Option Instant
  | .text s => parse? s
  | _ => none

end Instant

/-- What is stored of a version. -/
structure Content where
  id : String
  /-- The version that this one was made from. -/
  base : Option String
  name : String
  status : VersionStatus
  description : String
  created : Option Instant
  modified : Option Instant
  properties : Keyed Json
  deriving DecidableEq

namespace Content

/-- The content without anything in it. -/
def blank : Content :=
  ⟨"", none, "", .draft, "", none, none, ∅⟩

/-- The fields of a content's document. -/
def jsonFields (c : Content) : List (String × Json) :=
  [("id", .text c.id), ("base_id", Json.textOrNull c.base), ("name", .text c.name),
    ("status", .text c.status.name), ("description", .text c.description),
    ("creation_time", Instant.toJson c.created), ("modification_time", Instant.toJson c.modified),
    ("properties", .record c.properties.entries)]

/-- The document of a content. -/
def toJson (c : Content) : Json :=
  .record c.jsonFields

/-- The content that a document holds. -/
def ofJson? (j : Json) : Option Content := do
  let fs ← j.fields? ["id", "base_id", "name", "status", "description", "creation_time",
    "modification_time", "properties"]
  let id ← fs.required "id" Json.text?
  let base ← fs.optional "base_id" Json.text?
  let name ← fs.required "name" Json.text?
  let status ← fs.required "status" (Json.word? VersionStatus.ofName?)
  let description ← fs.required "description" Json.text?
  let created ← fs.optional "creation_time" Instant.ofJson?
  let modified ← fs.optional "modification_time" Instant.ofJson?
  let properties ← fs.required "properties" (Json.keyed? Json.value?)
  return { id, base, name, status, description, created, modified, properties }

/-- Whether a content stands before another one in a listing: the older first, those without a
creation time before all others, and in the order of their names where that does not decide. -/
def listedBefore (a b : Content) : Bool :=
  ((Instant.compareOptional a.created b.created).then (compare a.name b.name)).isLE

end Content

/-- A version as a store hands it out and takes it in. -/
structure Version extends Content where
  state : Option CopyState := none
  deriving DecidableEq

namespace Version

/-- The version without anything in it. -/
def blank : Version :=
  { Content.blank with }

/-- Whether the version was not stored yet. -/
def isNew (v : Version) : Bool :=
  v.id.isEmpty

/-- Whether the version is certified. -/
def isCertified (v : Version) : Bool :=
  v.status == .certified

/-- Whether the version is known to be behind the shared one. -/
def isOutOfSync (v : Version) : Bool :=
  v.state.any CopyState.isOutOfSync

/-- Gives a property a value. -/
def setProperty (v : Version) (key : String) (value : Json) : Version :=
  { v with properties := v.properties.insert key value }

/-- Takes over what a caller may set: the description, and properties on top of those that are
there. Name and status stay. -/
def overlay (v request : Version) : Version :=
  { v with
    description := request.description
    properties := v.properties.overlay request.properties }

/-- The document of a version; it has a state only if the version has one. -/
def toJson (v : Version) : Json :=
  .record (v.jsonFields ++ v.state.toList.map fun s => ("state", s.toJson))

/-- The version that a document holds. -/
def ofJson? (j : Json) : Option Version := do
  let fs ← j.fields? ["id", "base_id", "name", "status", "state", "description", "creation_time",
    "modification_time", "properties"]
  let id ← fs.required "id" Json.text?
  let base ← fs.optional "base_id" Json.text?
  let name ← fs.required "name" Json.text?
  let status ← fs.required "status" (Json.word? VersionStatus.ofName?)
  let state ← fs.withDefault "state" (Json.optional? CopyState.ofJson?) none
  let description ← fs.withDefault "description" Json.text? ""
  let created ← fs.optional "creation_time" Instant.ofJson?
  let modified ← fs.optional "modification_time" Instant.ofJson?
  let properties ← fs.withDefault "properties" (Json.keyed? Json.value?) ∅
  return { id, base, name, status, description, created, modified, properties, state }

end Version

/-! ### Offered steps -/

namespace Calculator

/-- The property that tells from a listed version which steps a new version may take from it. -/
def offeredSteps : String := "OptionalCreationMethods"

/-- Notes on a version which steps it offers: a certified version offers the major step if no listed
version has the name that the step leads to, and a draft offers nothing. -/
def annotate (c : Calculator) (names : List String) (v : Version) : Except EngineError Version :=
  match v.status with
  | .draft => return v.setProperty offeredSteps (.list [])
  | .certified => do
    let next ← c.calculate (some v.name) .major
    let steps := if names.contains next then [] else [Json.text Step.major.name]
    return v.setProperty offeredSteps (.list steps)

end Calculator

end VersionCatalog
