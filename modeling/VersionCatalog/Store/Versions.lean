import VersionCatalog.Store.Items

/-!
# Versions in the store

A user edits a copy of a version and publishes it; others pull what was published. A copy may be
published only while it stands on the latest revision, so nobody overwrites a publication that they
have not seen. Pulling takes the latest revision over into an unedited copy and marks an edited one
as merging, which it stays until it is thrown away.

The rules are stated on the versions of one item (`Shelf`) and then lifted to the store.
-/

namespace VersionCatalog

namespace Shelf

/-! ### Rules on the versions of one item -/

/-- Whether a version of the item, shared or in anybody's copy, has the name. -/
def usesName (s : Shelf) (name : String) : Bool :=
  s.heads.any (fun e => e.content.name == name) ||
    s.copies.values.any fun copies => copies.values.any fun c => c.content.name == name

/-- Whether another version than the given one is shared under the name. -/
def sharesName (s : Shelf) (version name : String) : Bool :=
  s.shared.entries.any fun (v, shared) =>
    v != version && shared.head?.any fun e => e.content.name == name

/-- The shared versions as of their latest publication, in the order of their creation. -/
def list (s : Shelf) : List Version :=
  (s.heads.map (·.content)).mergeSort Content.listedBefore |>.map fun c => { c with }

/-- A user's copy of a version. While it is not up to date its status is that of the shared one, so
everybody sees the same life of a version. -/
def get? (s : Shelf) (user version : String) : Option Version :=
  (s.copy? user version).map fun c =>
    let head := s.head? version
    let sync := c.syncState head
    let status := if sync = .upToDate then c.content.status
      else (head.map (·.content.status)).getD c.content.status
    { c.content with status := status, state := some ⟨sync, c.dirty⟩ }

/-- Makes a new version in the user's copies, under a new id and created now. -/
def create (item id : String) (now : Instant) (user : String) (v : Version) :
    EStateM StoreError Shelf Version := fun s =>
  if s.usesName v.name then .error (.nameTaken item v.name) s
  else
    let content := { v.toContent with id := id, created := some now, modified := some now }
    .ok { content with state := some ⟨.upToDate, true⟩ }
      (s.putCopy user id ⟨content, none, true, false⟩)

/-- Edits the user's copy of a version: name, status, description and properties are taken over. -/
def update (item : String) (now : Instant) (user : String) (v : Version) :
    EStateM StoreError Shelf Unit := fun s =>
  match s.copy? user v.id with
  | none => .error (.noVersion item v.id) s
  | some c =>
    let content := { c.content with
      name := v.name
      status := v.status
      description := v.description
      properties := v.properties
      modified := some now }
    .ok () (s.putCopy user v.id { c with content := content, dirty := true })

/-- Adds a publication at the end of a version's shared copy. -/
def append (s : Shelf) (version : String) (e : Entry) : Shelf :=
  { s with shared := s.shared.insert version ⟨((s.shared.get? version).elim [] (·.entries)) ++ [e]⟩ }

/-- Publishes the user's copy of a version. The copy has to stand on the latest revision. A copy
without edits is not published again. -/
def publish (item revision : String) (now : Instant) (user version message : String) :
    EStateM StoreError Shelf Unit := fun s =>
  match s.copy? user version with
  | none => .error (.noVersion item version) s
  | some c =>
    match c.syncState (s.head? version) with
    | .merging => .error (.unresolvedMerge version) s
    | .outOfSync => .error (.outOfSync version) s
    | .upToDate =>
      if !c.dirty && c.synced.isSome then .ok () s
      else if s.sharesName version c.content.name then .error (.nameTaken item c.content.name) s
      else
        .ok () ((s.append version ⟨⟨revision, message, now, user⟩, c.content⟩).putCopy user version
          { c with synced := some revision, dirty := false })

/-- Pulls the latest revision of a version into the user's copy. A copy that is not there yet is
made, an unedited one is replaced, and an edited one is marked as merging. A call makes the user's
table of copies, also when it fails. -/
def sync (item user version : String) : EStateM StoreError Shelf Unit := fun s =>
  match s.copy? user version, s.head? version with
  | none, none =>
    .error (.noVersion item version)
      { s with copies := s.copies.insert user (s.copies.getD user ∅) }
  | none, some e => .ok () (s.putCopy user version (.ofEntry e))
  | some _, none => .ok () s
  | some c, some e =>
    if c.merging || c.synced = some e.revision.id then .ok () s
    else if c.dirty then .ok () (s.putCopy user version { c with merging := true })
    else .ok () (s.putCopy user version { c with content := e.content, synced := e.revision.id })

/-- Replaces the user's copy of a version by the latest revision. -/
def forceSync (item user version : String) : EStateM StoreError Shelf Unit := fun s =>
  match s.head? version with
  | none => .error (.noVersion item version) s
  | some e => .ok () (s.putCopy user version (.ofEntry e))

/-- Throws the user's copy of a version away; a user without copies has no table of them. -/
def clean (user version : String) : EStateM StoreError Shelf Unit := fun s =>
  match s.copies.get? user with
  | none => .ok () s
  | some copies =>
    let rest := copies.erase version
    .ok () { s with
      copies := if rest.isEmpty then s.copies.erase user else s.copies.insert user rest }

/-- Takes the content of an earlier revision over into the user's copy, as an edit. -/
def revert (item : String) (now : Instant) (user version revision : String) :
    EStateM StoreError Shelf Unit := fun s =>
  match ((s.shared.get? version).elim [] (·.entries)).find? (fun e => e.revision.id == revision) with
  | none => .error (.noRevision version revision) s
  | some e =>
    match s.copy? user version with
    | none => .error (.noVersion item version) s
    | some c =>
      .ok () (s.putCopy user version
        { c with content := { e.content with modified := some now }, dirty := true })

/-- The revisions of a version in the order of their publication. -/
def revisions (s : Shelf) (version : String) : List Revision :=
  ((s.shared.get? version).elim [] (·.entries)).map (·.revision)

end Shelf

namespace Store

/-! ### The rules in the store -/

/-- Changes the versions of an item that exists. -/
def onShelf {α : Type} (session : Session) (item : String) (change : EStateM StoreError Shelf α) :
    Change α :=
  onTenant session fun t =>
    if t.items.contains item then
      match change ((t.shelves.get? item).getD Shelf.empty) with
      | .ok a shelf => .ok a { t with shelves := t.shelves.insert item shelf }
      | .error e shelf => .error e { t with shelves := t.shelves.insert item shelf }
    else .error (.noItem item) t

/-- The shared versions of an item, in the order of their creation. -/
def listVersions (s : Store) (session : Session) (item : String) : List Version :=
  (s.shelf session.tenant item).list

/-- The user's copy of a version. -/
def getVersion (s : Store) (session : Session) (item version : String) : Option Version :=
  (s.shelf session.tenant item).get? session.user version

/-- Makes a new version, which only the user sees until it is published. -/
def createVersion (id : String) (now : Instant) (session : Session) (item : String)
    (v : Version) : Change Version :=
  onShelf session item (Shelf.create item id now session.user v)

/-- Edits the user's copy of a version. -/
def updateVersion (now : Instant) (session : Session) (item : String) (v : Version) :
    Change Unit :=
  onShelf session item (Shelf.update item now session.user v)

/-- Publishes the user's copy of a version. -/
def publish (revision : String) (now : Instant) (session : Session)
    (item version message : String) : Change Unit :=
  onShelf session item (Shelf.publish item revision now session.user version message)

/-- Pulls the latest revision of a version into the user's copy. -/
def sync (session : Session) (item version : String) : Change Unit :=
  onShelf session item (Shelf.sync item session.user version)

/-- Replaces the user's copy of a version by the latest revision. -/
def forceSync (session : Session) (item version : String) : Change Unit :=
  onShelf session item (Shelf.forceSync item session.user version)

/-- Throws the user's copy of a version away. -/
def clean (session : Session) (item version : String) : Change Unit :=
  onShelf session item (Shelf.clean session.user version)

/-- Takes the content of an earlier revision over into the user's copy. -/
def revert (now : Instant) (session : Session) (item version revision : String) : Change Unit :=
  onShelf session item (Shelf.revert item now session.user version revision)

/-- The revisions of a version in the order of their publication. -/
def listRevisions (s : Store) (session : Session) (item version : String) : List Revision :=
  (s.shelf session.tenant item).revisions version

end Store

end VersionCatalog
