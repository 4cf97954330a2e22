import VersionCatalog.Error
import VersionCatalog.Json.Shape
import VersionCatalog.Text.Blank

/-!
# Sessions

Who is calling, and for which tenant. Every call of the engine and of a store is made in a session.
-/

namespace VersionCatalog

/-- A user who acts for a tenant. -/
structure Session where
  user : String
  tenant : String
  deriving DecidableEq

namespace Session

/-- The session of a user and a tenant that are both set, that is, not blank. They are kept as they
are given, with the blanks at their ends. -/
def open? (user tenant : String) : Except EngineError Session :=
  if Text.isBlankText user then .error (.session "user id was not set")
  else if Text.isBlankText tenant then .error (.session "tenant was not set")
  else .ok ⟨user, tenant⟩

/-! ### As a document -/

/-- The document of a session. -/
def toJson (s : Session) : Json :=
  .record [("user_id", .text s.user), ("tenant", .text s.tenant)]

/-- The session that a document holds. Whether its parts are set is not asked here. -/
def ofJson? (j : Json) : Option Session := do
  let fs ← j.fields? ["user_id", "tenant"]
  let user ← fs.required "user_id" Json.text?
  let tenant ← fs.required "tenant" Json.text?
  return ⟨user, tenant⟩

end Session

end VersionCatalog
