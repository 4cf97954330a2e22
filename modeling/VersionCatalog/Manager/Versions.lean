import VersionCatalog.Manager.Items

/-!
# Managing versions

The engine's calls on versions, over any backend: naming new versions, the way from draft to
certified, and reconciling a copy with the shared one when it is read. A certified version is never
handed out while it is known to be behind the shared one, and a version that the caller has no copy of
is pulled first. The engine calls a store again only to see what a call did; if the version is missing
then, the store broke its word, and the call fails with an error of its own kind.
-/

namespace VersionCatalog.Versions

variable {σ : Type}

/-- The user's copy of a version after a call that should have left one. -/
def refetch (b : Backend σ) (session : Session) (item version after : String) :
    Call σ Version := do
  match ← .ofStore (b.getVersion session item version) with
  | some v => return v
  | none =>
    throw (.internalConsistency s!"version {version} of item {item} is missing after {after}")

/-- The shared versions of an item, each with the steps that it offers. -/
def list (b : Backend σ) (naming : Calculator) (session : Session) (item : String) :
    Call σ (List Version) := do
  let versions ← .ofStore (b.listVersions session item)
  .ofExcept (versions.mapM (naming.annotate (versions.map (·.name))))

/-- The user's copy of a version, reconciled with the shared one. -/
def get (b : Backend σ) (session : Session) (item version : String) : Call σ Version := do
  match ← .ofStore (b.getVersion session item version) with
  | some v =>
    if v.isCertified && v.isOutOfSync then
      .ofStore (b.forceSync session item version)
      refetch b session item version "force sync"
    else return v
  | none =>
    .ofStore (b.sync session item version)
    refetch b session item version "sync"

/-- The version that a new one is to be made from; it has to be certified. -/
def certifiedBase (b : Backend σ) (session : Session) (item base : String) : Call σ Version := do
  let v ← get b session item base
  if v.isCertified then return v
  else
    throw (.validation s!"base version {v.name} must be Certified to create a new version from it")

/-- Changes the tally of an item. -/
def updateTally (b : Backend σ) (session : Session) (item : String) (change : Tally → Tally) :
    Call σ Unit := do
  match ← .ofStore (b.getItem session item) with
  | some stored => .ofStore (b.updateItem session { stored with tally := change stored.tally })
  | none => throw (.notFound s!"item {item}")

/-- Makes a new version and publishes it. It is named one step after its base, or after the seed;
description and properties are the caller's. -/
def create (b : Backend σ) (naming : Calculator) (session : Session) (item : String)
    (base : Option String) (request : Version) (step : Step) : Call σ Version := do
  let base ← match base with
    | some id => some <$> certifiedBase b session item id
    | none => pure none
  let name ← .ofExcept (naming.calculate (base.map (·.name)) step)
  let existing ← .ofStore (b.listVersions session item)
  if existing.any (·.name == name) then
    throw (.validation s!"item {item} already has a version named {name}")
  let version := { Version.blank.overlay request with base := base.map (·.id), name := name }
  let created ← .ofStore (b.createVersion session item version)
  updateTally b session item (·.add .draft)
  .ofStore (b.publish session item created.id s!"Create version: {created.name}")
  refetch b session item created.id "create"

/-- Takes description and properties over into the user's copy of a version. -/
def update (b : Backend σ) (session : Session) (item version : String) (request : Version) :
    Call σ Version := do
  let stored ← get b session item version
  .ofStore (b.updateVersion session item (stored.overlay request))
  refetch b session item version "update"

/-- Takes a version forward in its life and publishes that. If the publication fails, the user's copy
keeps the new status as an edit, and the item's tally stays. -/
def updateStatus (b : Backend σ) (session : Session) (item version : String)
    (status : VersionStatus) (message : String) : Call σ Unit := do
  let v ← get b session item version
  if v.status = status then
    throw (.validation s!"version {v.name} is already in status {status.name}")
  if !v.status.canBecome status then
    throw (.validation
      s!"version {v.name} cannot move from {v.status.name} back to {status.name}")
  .ofStore (b.updateVersion session item { v with status := status })
  .ofStore (b.publish session item version message)
  updateTally b session item fun t => (t.add status).remove v.status

/-- Publishes the user's copy of a version. -/
def publish (b : Backend σ) (session : Session) (item version message : String) : Call σ Unit :=
  .ofStore (b.publish session item version message)

/-- Pulls the latest revision of a version into the user's copy. -/
def sync (b : Backend σ) (session : Session) (item version : String) : Call σ Unit :=
  .ofStore (b.sync session item version)

/-- Replaces the user's copy of a version by the latest revision. -/
def forceSync (b : Backend σ) (session : Session) (item version : String) : Call σ Unit :=
  .ofStore (b.forceSync session item version)

/-- Throws the user's copy of a version away. -/
def clean (b : Backend σ) (session : Session) (item version : String) : Call σ Unit :=
  .ofStore (b.clean session item version)

/-- Takes the content of an earlier revision over into the user's copy. -/
def revert (b : Backend σ) (session : Session) (item version revision : String) : Call σ Unit :=
  .ofStore (b.revert session item version revision)

/-- The revisions of a version, the latest first. -/
def listRevisions (b : Backend σ) (session : Session) (item version : String) :
    Call σ (List Revision) := do
  let revisions ← .ofStore (b.listRevisions session item version)
  return Revision.latestFirst revisions

/-- Versions are kept for audit and are never deleted. -/
def delete (item version : String) : Call σ Unit :=
  throw (.unsupported s!"deleting version {version} of item {item}")

end VersionCatalog.Versions
