/-!
# Errors

What can go wrong in a store (`StoreError`) and in the engine above it (`EngineError`). Each error
has a kind, a code and a message; the engine passes a store's errors on as they are, but for a
missing thing, which is a finding of its own in both.
-/

namespace VersionCatalog

/-- The kinds of faults a store reports. -/
inductive StoreFault where
  | io
  | serialization
  | notFound
  | conflict
  | unsupported
  | unavailable
  | configuration
  | other
  deriving DecidableEq

namespace StoreFault

/-- The code of a fault. -/
def code : StoreFault → Nat
  | io => 3001
  | serialization => 3011
  | notFound => 3004
  | conflict => 3005
  | unsupported => 3013
  | unavailable => 3009
  | configuration => 3010
  | other => 3000

/-- How a message about a fault begins. -/
def label : StoreFault → String
  | io => "I/O error"
  | serialization => "Serialization error"
  | notFound => "Not found"
  | conflict => "Conflict"
  | unsupported => "Unsupported"
  | unavailable => "Backend unavailable"
  | configuration => "Configuration error"
  | other => "Storage error"

end StoreFault

/-- An error of a store: what kind of fault it is, and a text that says more. -/
structure StoreError where
  fault : StoreFault
  text : String
  deriving DecidableEq

namespace StoreError

/-- The code of an error. -/
def code (e : StoreError) : Nat :=
  e.fault.code

/-- The message of an error. -/
def message (e : StoreError) : String :=
  e.fault.label ++ ": " ++ e.text

/-- Whether the same call may succeed later without anything being changed. -/
def isRetryable (e : StoreError) : Bool :=
  e.fault == .io || e.fault == .unavailable

/-- Whether the call would have broken a rule between the versions of an item. -/
def isConflict (e : StoreError) : Bool :=
  e.fault == .conflict

/-- Whether something that the call names does not exist. -/
def isNotFound (e : StoreError) : Bool :=
  e.fault == .notFound

/-! ### The errors of the store's own rules -/

/-- There is no such item. -/
def noItem (item : String) : StoreError :=
  ⟨.notFound, s!"item {item}"⟩

/-- The caller has no copy of the version, or nobody has published it. -/
def noVersion (item version : String) : StoreError :=
  ⟨.notFound, s!"version {version} of item {item}"⟩

/-- The version has no such revision. -/
def noRevision (version revision : String) : StoreError :=
  ⟨.notFound, s!"revision {revision} of version {version}"⟩

/-- Another version of the item has the name. -/
def nameTaken (item name : String) : StoreError :=
  ⟨.conflict, s!"item {item} already has a version named {name}"⟩

/-- The copy has edits of its own and is behind the shared one. -/
def unresolvedMerge (version : String) : StoreError :=
  ⟨.conflict, s!"version {version} has an unresolved merge"⟩

/-- The copy is behind the shared one. -/
def outOfSync (version : String) : StoreError :=
  ⟨.conflict, s!"version {version} is out of sync, sync before publishing"⟩

/-- The text is not the JSON document of a store. -/
def unreadable : StoreError :=
  ⟨.serialization, "not the document of a store"⟩

end StoreError

/-- The kinds of errors that a caller of the engine tells apart. -/
inductive ErrorKind where
  | validation
  | notFound
  | internalConsistency
  | unsupported
  | session
  | config
  | storage
  deriving DecidableEq

/-- The name of a kind. -/
def ErrorKind.name : ErrorKind → String
  | validation => "validation"
  | notFound => "not_found"
  | internalConsistency => "internal_consistency"
  | unsupported => "unsupported"
  | session => "session"
  | config => "config"
  | storage => "storage"

/-- An error of the engine. -/
inductive EngineError where
  /-- The request breaks a rule of naming or of the life of an item or version. -/
  | validation (text : String)
  /-- Something that the request names does not exist. -/
  | notFound (text : String)
  /-- The store reported a success that its content does not bear out. -/
  | internalConsistency (text : String)
  /-- The engine does not offer the operation. -/
  | unsupported (text : String)
  /-- The caller did not say who is calling. -/
  | session (text : String)
  /-- The configuration is not usable. -/
  | config (text : String)
  /-- The store failed. -/
  | store (error : StoreError)
  deriving DecidableEq

namespace EngineError

/-- The kind of an error. -/
def kind : EngineError → ErrorKind
  | validation _ => .validation
  | notFound _ => .notFound
  | internalConsistency _ => .internalConsistency
  | unsupported _ => .unsupported
  | session _ => .session
  | config _ => .config
  | store _ => .storage

/-- The code of an error; a store's errors keep theirs. -/
def code : EngineError → Nat
  | validation _ => 7000
  | notFound _ => 8001
  | internalConsistency _ => 8002
  | unsupported _ => 8003
  | session _ => 2000
  | config _ => 1000
  | store e => e.code

/-- The message of an error; a store's errors keep theirs. -/
def message : EngineError → String
  | validation text => "Validation error: " ++ text
  | notFound text => "Not found: " ++ text
  | internalConsistency text => "Internal consistency error: " ++ text
  | unsupported text => "Unsupported operation: " ++ text
  | session text => "Session error: " ++ text
  | config text => "Configuration error: " ++ text
  | store e => e.message

/-- How the engine passes a store's error on. -/
def ofStore (e : StoreError) : EngineError :=
  match e.fault with
  | .notFound => .notFound e.text
  | _ => .store e

end EngineError

end VersionCatalog
