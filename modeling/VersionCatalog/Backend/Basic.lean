import VersionCatalog.Store.Basic

/-!
# Backends

What the engine asks of a store, whatever it is kept in. A backend over states `σ` answers each call
from a state and leaves a state behind, also where the call fails.

A step of the engine may need one new id of each kind, and reads the clock in each call of the store that
needs the time (`Fresh`). Ids and readings come from outside, so a step is a function of them.
-/

namespace VersionCatalog

/-- What the clock shows in each call of the store that needs the time. No step makes a call of one kind
twice. -/
structure Clock where
  createItem : Instant
  updateItem : Instant
  createVersion : Instant
  updateVersion : Instant
  publish : Instant
  revert : Instant
  /-- How long a check of the health takes, in milliseconds. -/
  latency : Nat
  deriving DecidableEq

/-- A clock that shows the same time in all calls, and no time between. -/
def Clock.still (t : Instant) : Clock :=
  ⟨t, t, t, t, t, t, 0⟩

instance : Coe Instant Clock := ⟨Clock.still⟩

/-- What a step takes from outside: the ids of what it may create, and the time. -/
structure Fresh where
  item : String
  version : String
  revision : String
  clock : Clock
  deriving DecidableEq

/-- The calls of a store. -/
structure Backend (σ : Type) where
  listItems : Session → EStateM StoreError σ (List Item)
  getItem : Session → (item : String) → EStateM StoreError σ (Option Item)
  createItem : Session → Item → EStateM StoreError σ Item
  updateItem : Session → Item → EStateM StoreError σ Unit
  deleteItem : Session → (item : String) → EStateM StoreError σ Unit
  listVersions : Session → (item : String) → EStateM StoreError σ (List Version)
  createVersion : Session → (item : String) → Version → EStateM StoreError σ Version
  updateVersion : Session → (item : String) → Version → EStateM StoreError σ Unit
  getVersion : Session → (item version : String) → EStateM StoreError σ (Option Version)
  deleteVersion : Session → (item version : String) → EStateM StoreError σ Unit
  publish : Session → (item version message : String) → EStateM StoreError σ Unit
  sync : Session → (item version : String) → EStateM StoreError σ Unit
  forceSync : Session → (item version : String) → EStateM StoreError σ Unit
  clean : Session → (item version : String) → EStateM StoreError σ Unit
  revert : Session → (item version revision : String) → EStateM StoreError σ Unit
  listRevisions : Session → (item version : String) → EStateM StoreError σ (List Revision)

/-- Whether a backend can be reached. -/
inductive Connection where
  | connected
  | disconnected
  deriving DecidableEq

namespace Connection

/-- The word for a connection. -/
def name : Connection → String
  | connected => "Connected"
  | disconnected => "Disconnected"

/-- The connection that a word names. -/
def ofName? : String → Option Connection
  | "Connected" => some connected
  | "Disconnected" => some disconnected
  | _ => none

@[simp] theorem ofName?_name (c : Connection) : ofName? c.name = some c := by
  cases c <;> rfl

end Connection

/-- A report on the health of a backend. -/
structure Health where
  healthy : Bool
  backend : String
  connection : Connection
  /-- How long the check took, in milliseconds. -/
  latency : Nat
  errors : List String
  deriving DecidableEq

namespace Health

/-- The report that lists the given errors: healthy if there are none. -/
def ofErrors (backend : String) (latency : Nat) (errors : List String) : Health where
  healthy := errors.isEmpty
  backend := backend
  connection := if errors.isEmpty then .connected else .disconnected
  latency := latency
  errors := errors

/-- The document of a report. -/
def toJson (h : Health) : Json :=
  .record [("healthy", .bool h.healthy), ("backend_type", .text h.backend),
    ("connection_status", .text h.connection.name), ("latency_ms", .int h.latency),
    ("errors", .list (h.errors.map Json.text))]

/-- The report that a document holds. -/
def ofJson? (j : Json) : Option Health := do
  let fs ← j.fields? ["healthy", "backend_type", "connection_status", "latency_ms", "errors"]
  let healthy ← fs.required "healthy" Json.bool?
  let backend ← fs.required "backend_type" Json.text?
  let connection ← fs.required "connection_status" (Json.word? Connection.ofName?)
  let latency ← fs.required "latency_ms" (Json.natUpTo? 18446744073709551615)
  let errors ← fs.required "errors" (Json.list? Json.text?)
  return { healthy, backend, connection, latency, errors }

end Health

end VersionCatalog
