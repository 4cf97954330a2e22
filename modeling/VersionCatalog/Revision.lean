import VersionCatalog.Version

/-!
# Revisions

The record of one publication of a version: who published it, when, and with what message.
-/

namespace VersionCatalog

/-- The record of a publication. -/
structure Revision where
  id : String
  message : String
  time : Instant
  user : String
  deriving DecidableEq

namespace Revision

/-- The document of a revision. -/
def toJson (r : Revision) : Json :=
  .record [("id", .text r.id), ("message", .text r.message), ("time", .text r.time.toText),
    ("user", .text r.user)]

/-- The revision that a document holds. -/
def ofJson? (j : Json) : Option Revision := do
  let fs ← j.fields? ["id", "message", "time", "user"]
  let id ← fs.required "id" Json.text?
  let message ← fs.required "message" Json.text?
  let time ← fs.required "time" Instant.ofJson?
  let user ← fs.required "user" Json.text?
  return { id, message, time, user }

/-- Revisions with the latest first; those of the same time keep their order. -/
def latestFirst (rs : List Revision) : List Revision :=
  rs.mergeSort fun a b => decide (b.time ≤ a.time)

end Revision

end VersionCatalog
