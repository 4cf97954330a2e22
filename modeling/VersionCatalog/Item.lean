import VersionCatalog.Version

/-!
# Items

A named thing whose history is kept as versions. An item counts its versions by their status; a
status that no version has is not in the count.
-/

namespace VersionCatalog

/-- Where an item is in its life. -/
inductive ItemStatus where
  | active
  | archived
  | deleted
  deriving DecidableEq

namespace ItemStatus

/-- The word for a status. -/
def name : ItemStatus → String
  | active => "Active"
  | archived => "Archived"
  | deleted => "Deleted"

/-- The status that a word names. -/
def ofName? : String → Option ItemStatus
  | "Active" => some active
  | "Archived" => some archived
  | "Deleted" => some deleted
  | _ => none

@[simp] theorem ofName?_name (s : ItemStatus) : ofName? s.name = some s := by
  cases s <;> rfl

end ItemStatus

/-- How many versions of an item have each status, as 32-bit words. A status without an entry counts
as zero. -/
structure Tally where
  draft : Option UInt32
  certified : Option UInt32
  deriving DecidableEq

namespace Tally

/-- The tally without entries. -/
def empty : Tally := ⟨none, none⟩

instance : EmptyCollection Tally := ⟨empty⟩

/-- The entry of a status. -/
def get? (t : Tally) : VersionStatus → Option UInt32
  | .draft => t.draft
  | .certified => t.certified

/-- Replaces the entry of a status. -/
def set (t : Tally) (s : VersionStatus) (n : Option UInt32) : Tally :=
  match s with
  | .draft => { t with draft := n }
  | .certified => { t with certified := n }

/-- How many versions have a status. -/
def count (t : Tally) (s : VersionStatus) : Nat :=
  ((t.get? s).getD 0).toNat

/-- One more version has a status. After the greatest word the count starts again at zero. -/
def add (t : Tally) (s : VersionStatus) : Tally :=
  t.set s (some ((t.get? s).getD 0 + 1))

/-- One version less has a status. The last one takes the entry with it; without an entry nothing
changes. -/
def remove (t : Tally) (s : VersionStatus) : Tally :=
  match t.get? s with
  | none => t
  | some n => t.set s (if n ≤ 1 then none else some (n - 1))

/-- The tally of a list of counts. Zeros are left out, and the last count of a status counts. -/
def ofList (counts : List (VersionStatus × Nat)) : Tally :=
  (counts.filter fun (_, n) => 0 < n).foldl (fun t (s, n) => t.set s (some (.ofNat n))) ∅

@[simp] theorem get?_set_self (t : Tally) (s : VersionStatus) (n : Option UInt32) :
    (t.set s n).get? s = n := by
  cases s <;> rfl

theorem get?_set_of_ne {s s' : VersionStatus} (h : s' ≠ s) (t : Tally) (n : Option UInt32) :
    (t.set s n).get? s' = t.get? s' := by
  cases s <;> cases s' <;> first | rfl | exact absurd rfl h

/-- The document of a tally. -/
def toJson (t : Tally) : Json :=
  let entry (s : VersionStatus) := (t.get? s).toList.map fun (n : UInt32) => (s.name, Json.int n.toNat)
  .record (entry .draft ++ entry .certified)

/-- The tally that a document holds; zeros are kept. -/
def ofJson? : Json → Option Tally
  | .record fields => fields.foldlM (fun t (k, j) => do
      let s ← VersionStatus.ofName? k
      let n ← j.natUpTo? 4294967295
      return t.set s (some (.ofNat n))) ∅
  | _ => none

end Tally

/-- An item. -/
structure Item where
  id : String
  type : String
  name : String
  owner : String
  description : String
  status : ItemStatus
  created : Option Instant
  modified : Option Instant
  properties : Keyed Json
  tally : Tally
  deriving DecidableEq

namespace Item

/-- The item without anything in it. -/
def blank : Item :=
  ⟨"", "", "", "", "", .active, none, none, ∅, ∅⟩

/-- Whether the item was not stored yet. -/
def isNew (i : Item) : Bool :=
  i.id.isEmpty

/-- Gives a property a value. -/
def setProperty (i : Item) (key : String) (value : Json) : Item :=
  { i with properties := i.properties.insert key value }

/-- Takes over what a caller may set: type, name, owner and description, and properties on top of
those that are there. -/
def overlay (i request : Item) : Item :=
  { i with
    type := request.type
    name := request.name
    owner := request.owner
    description := request.description
    properties := i.properties.overlay request.properties }

/-- Whether an item stands before another one in a listing: the older first, those without a
creation time before all others, and in the order of their names where that does not decide. -/
def listedBefore (a b : Item) : Bool :=
  ((Instant.compareOptional a.created b.created).then (compare a.name b.name)).isLE

/-- The document of an item. -/
def toJson (i : Item) : Json :=
  .record [("id", .text i.id), ("type", .text i.type), ("name", .text i.name),
    ("owner", .text i.owner), ("description", .text i.description), ("status", .text i.status.name),
    ("creation_time", Instant.toJson i.created), ("modification_time", Instant.toJson i.modified),
    ("properties", .record i.properties.entries), ("version_status_counters", i.tally.toJson)]

/-- The item that a document holds. -/
def ofJson? (j : Json) : Option Item := do
  let fs ← j.fields? ["id", "type", "name", "owner", "description", "status", "creation_time",
    "modification_time", "properties", "version_status_counters"]
  let id ← fs.required "id" Json.text?
  let type ← fs.required "type" Json.text?
  let name ← fs.required "name" Json.text?
  let owner ← fs.withDefault "owner" Json.text? ""
  let description ← fs.withDefault "description" Json.text? ""
  let status ← fs.withDefault "status" (Json.word? ItemStatus.ofName?) .active
  let created ← fs.optional "creation_time" Instant.ofJson?
  let modified ← fs.optional "modification_time" Instant.ofJson?
  let properties ← fs.withDefault "properties" (Json.keyed? Json.value?) ∅
  let tally ← fs.withDefault "version_status_counters" Tally.ofJson? ∅
  return { id, type, name, owner, description, status, created, modified, properties, tally }

end Item

end VersionCatalog
