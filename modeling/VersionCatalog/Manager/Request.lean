import VersionCatalog.Manager.Versions

/-!
# Requests

The calls of the engine, and those of a store, as data, with what they answer. A history of the
catalog is a list of requests.
-/

namespace VersionCatalog

/-- What a successful call answers. -/
inductive Answer where
  | done
  | item (item : Item)
  | item? (item : Option Item)
  | items (items : List Item)
  | version (version : Version)
  | version? (version : Option Version)
  | versions (versions : List Version)
  | revisions (revisions : List Revision)
  deriving DecidableEq

/-- The document of an answer. -/
def Answer.toJson : Answer → Json
  | done => .null
  | item i => i.toJson
  | item? i => (i.map Item.toJson).getD .null
  | items is => .list (is.map Item.toJson)
  | version v => v.toJson
  | version? v => (v.map Version.toJson).getD .null
  | versions vs => .list (vs.map Version.toJson)
  | revisions rs => .list (rs.map Revision.toJson)

/-- A call of the engine. -/
inductive Request where
  | listItems (keep : Item → Bool)
  | getItem (item : String)
  | createItem (request : Item)
  | updateItem (item : String) (request : Item)
  | deleteItem (item : String)
  | setItemStatus (item : String) (status : ItemStatus)
  | listVersions (item : String)
  | getVersion (item version : String)
  | createVersion (item : String) (base : Option String) (request : Version) (step : Step)
  | updateVersion (item version : String) (request : Version)
  | setVersionStatus (item version : String) (status : VersionStatus) (message : String)
  | publish (item version message : String)
  | sync (item version : String)
  | forceSync (item version : String)
  | clean (item version : String)
  | revert (item version revision : String)
  | listRevisions (item version : String)
  | deleteVersion (item version : String)

/-- What the engine does for a request. -/
def Request.run {σ : Type} (b : Backend σ) (naming : Calculator) (session : Session) :
    Request → Call σ Answer
  | listItems keep => .items <$> Items.list b session keep
  | getItem item => .item <$> Items.get b session item
  | createItem request => .item <$> Items.create b session request
  | updateItem item request => .item <$> Items.update b session item request
  | deleteItem item => (fun () => .done) <$> Items.delete b session item
  | setItemStatus item status => .item <$> Items.updateStatus b session item status
  | listVersions item => .versions <$> Versions.list b naming session item
  | getVersion item version => .version <$> Versions.get b session item version
  | createVersion item base request step =>
    .version <$> Versions.create b naming session item base request step
  | updateVersion item version request =>
    .version <$> Versions.update b session item version request
  | setVersionStatus item version status message =>
    (fun () => .done) <$> Versions.updateStatus b session item version status message
  | publish item version message =>
    (fun () => .done) <$> Versions.publish b session item version message
  | sync item version => (fun () => .done) <$> Versions.sync b session item version
  | forceSync item version => (fun () => .done) <$> Versions.forceSync b session item version
  | clean item version => (fun () => .done) <$> Versions.clean b session item version
  | revert item version revision =>
    (fun () => .done) <$> Versions.revert b session item version revision
  | listRevisions item version =>
    .revisions <$> Versions.listRevisions b session item version
  | deleteVersion item version => (fun () => .done) <$> Versions.delete item version

/-- A call of the store, without the engine's rules. -/
inductive StoreRequest where
  | listItems
  | getItem (item : String)
  | createItem (item : Item)
  | updateItem (item : Item)
  | deleteItem (item : String)
  | listVersions (item : String)
  | getVersion (item version : String)
  | createVersion (item : String) (version : Version)
  | updateVersion (item : String) (version : Version)
  | deleteVersion (item version : String)
  | publish (item version message : String)
  | sync (item version : String)
  | forceSync (item version : String)
  | clean (item version : String)
  | revert (item version revision : String)
  | listRevisions (item version : String)

/-- What a store does for a request. -/
def StoreRequest.run {σ : Type} (b : Backend σ) (session : Session) :
    StoreRequest → EStateM StoreError σ Answer
  | listItems => .items <$> b.listItems session
  | getItem item => .item? <$> b.getItem session item
  | createItem item => .item <$> b.createItem session item
  | updateItem item => (fun () => .done) <$> b.updateItem session item
  | deleteItem item => (fun () => .done) <$> b.deleteItem session item
  | listVersions item => .versions <$> b.listVersions session item
  | getVersion item version => .version? <$> b.getVersion session item version
  | createVersion item version => .version <$> b.createVersion session item version
  | updateVersion item version => (fun () => .done) <$> b.updateVersion session item version
  | deleteVersion item version => (fun () => .done) <$> b.deleteVersion session item version
  | publish item version message =>
    (fun () => .done) <$> b.publish session item version message
  | sync item version => (fun () => .done) <$> b.sync session item version
  | forceSync item version => (fun () => .done) <$> b.forceSync session item version
  | clean item version => (fun () => .done) <$> b.clean session item version
  | revert item version revision =>
    (fun () => .done) <$> b.revert session item version revision
  | listRevisions item version => .revisions <$> b.listRevisions session item version

end VersionCatalog
