import VersionCatalog.Proofs.Growth
import VersionCatalog.Proofs.Reading

/-!
# Restoring a revision

Nothing that was published of a version is ever taken back, but it can be published again: a user who is up to
date reverts to a revision and publishes that (`restoring`). This succeeds for every revision of the version,
since a revert leaves the copy on the revision that it stands on and its name as it is; what is published is the
revision's content, but for the time of its last change. It becomes the head, and so what everybody gets who
throws the own copy away and reads the version; and the head that it supersedes can be restored like any other
revision.

## Main results

* `Store.Orderly.afterServing_restoring`: what a restoration makes of the store.
* `Store.Orderly.restored`: what comes of a restoration in a store that is orderly and consistent.
* `Store.every_revision_restored`: the same after every history of requests, and for restoring the former head
  after that.
-/

namespace VersionCatalog

/-- A user reverts to a revision of a version and publishes that. -/
def restoring (session : Session) (item version revision message : String) (f g : Fresh) :
    List (Event Request) :=
  [⟨f, session, .revert item version revision⟩, ⟨g, session, .publish item version message⟩]

/-- No two publications of a version have one revision id, so the id of one leads back to it. -/
theorem Shelf.restored?_id {s : Shelf} {version : String} {r : Entry}
    (hids : ((s.entries version).map (·.revision.id)).Nodup) (hr : r ∈ s.entries version) :
    s.restored? version r.revision.id = some r := by
  cases hfound : s.restored? version r.revision.id with
  | none => exact absurd (List.find?_eq_none.1 hfound r hr) (by simp)
  | some r' =>
      have hid : r'.revision.id = r.revision.id := by simpa using List.find?_some hfound
      rw [List.inj_on_of_nodup_map hids (Shelf.mem_entries_of_restored? hfound) hr hid]

/-- A user's copy of a version is up to date. -/
def Shelf.Current (s : Shelf) (user version : String) : Prop :=
  ∃ c, s.copy? user version = some c ∧ c.syncState (s.head? version) = .upToDate

namespace Store

variable {P : VersionStatus → VersionStatus → Prop} {past : List Fresh} {s : Store}
  {session : Session} {item version message : String} {c : WorkingCopy} {e head r : Entry} {f g : Fresh}

/-! ### Reading afresh -/

/-- A user who throws the copy of a shared version away and reads the version gets the head. -/
theorem read_afresh (session : Session) {x : Item} (hx : s.item? session.tenant item = some x)
    (he : (s.shelf session.tenant item).head? version = some e) (naming : Calculator) (f g : Fresh) :
    s.reply naming ⟨f, session, .clean item version⟩ = .ok .done ∧
    (s.serve naming ⟨f, session, .clean item version⟩).reply naming
        ⟨g, session, .getVersion item version⟩
      = .ok (.version ⟨e.content, some ⟨.upToDate, false⟩⟩) := by
  let cleaned := s.putShelf session.tenant item
    ((s.shelf session.tenant item).dropCopy session.user version)
  have hclean : served naming s ⟨f, session, .clean item version⟩ = .ok .done cleaned := by
    have hcall : Versions.clean (Memory.backend f) session item version s = .ok () cleaned :=
      Call.ofStore_ok (onShelf_ok hx (Shelf.clean_eq ..))
    exact map_eq_ok.2 ⟨(), hcall, rfl⟩
  have hx' : cleaned.item? session.tenant item = some x := by rw [item?_putShelf, hx]
  have hcopy : (cleaned.shelf session.tenant item).copy? session.user version = none := by
    rw [shelf_putShelf_self, Shelf.copy?_dropCopy, if_pos ⟨rfl, rfl⟩]
  have he' : (cleaned.shelf session.tenant item).head? version = some e := by
    rw [shelf_putShelf_self, Shelf.head?_dropCopy, he]
  have hget := Versions.get_of_absent (f := g) hx' hcopy he'
  constructor
  · rw [reply, hclean]
    rfl
  · rw [Store.serve, hclean, stateOf_ok, reply, served, Request.run, answerOf_map, hget]
    rfl

/-! ### Restorations -/

/-- What comes of restoring a publication of a version. -/
structure Restored (naming : Calculator) (s : Store) (session : Session) (item version message : String)
    (r : Entry) (f g : Fresh) (s' : Store) : Prop where
  reverted : s.reply naming ⟨f, session, .revert item version r.revision.id⟩ = .ok .done
  published : (s.serve naming ⟨f, session, .revert item version r.revision.id⟩).reply naming
    ⟨g, session, .publish item version message⟩ = .ok .done
  after : s' = s.afterServing naming (restoring session item version r.revision.id message f g)
  /-- One publication is added at the end: what is restored, with a new time of change. -/
  entries : (s'.shelf session.tenant item).entries version
    = (s.shelf session.tenant item).entries version
      ++ [⟨⟨g.revision, message, g.clock.publish, session.user⟩, { r.content with modified := some f.clock.revert }⟩]
  /-- Nothing is published of any other version. -/
  elsewhere : ∀ t i v, ¬ (t = session.tenant ∧ i = item ∧ v = version) →
    (s'.shelf t i).entries v = (s.shelf t i).entries v
  /-- Everybody who throws the own copy away and reads the version gets what was restored. -/
  seen : ∀ (user : String) (d e : Fresh),
    let clean : Event Request := ⟨d, ⟨user, session.tenant⟩, .clean item version⟩
    s'.reply naming clean = .ok .done ∧ ∃ v : Version,
      (s'.serve naming clean).reply naming ⟨e, ⟨user, session.tenant⟩, .getVersion item version⟩
        = .ok (.version v) ∧
      v.description = r.content.description ∧ v.properties = r.content.properties

namespace Orderly

/-- What a restoration makes of the store: the restored content is published from the user's copy. -/
theorem afterServing_restoring (h : s.Orderly P past) (hconsistent : s.Consistent)
    (naming : Calculator) (message : String) (f g : Fresh)
    (hcurrent : (s.shelf session.tenant item).Current session.user version)
    (hr : r ∈ (s.shelf session.tenant item).entries version) :
    s.reply naming ⟨f, session, .revert item version r.revision.id⟩ = .ok .done ∧
    (s.serve naming ⟨f, session, .revert item version r.revision.id⟩).reply naming
      ⟨g, session, .publish item version message⟩ = .ok .done ∧
    s.afterServing naming (restoring session item version r.revision.id message f g)
      = s.putShelf session.tenant item ((s.shelf session.tenant item).published g session.user version
          message (r.content.restored f.clock.revert)) := by
  obtain ⟨c, hc, hsync⟩ := hcurrent
  obtain ⟨head, hhead⟩ := (h.sound session.tenant item).head_of_copy hc
  rw [hhead] at hsync
  have hentry := Shelf.restored?_id (hconsistent.revisions.once ..) hr
  have hpublished := h.served_publish_restored naming
    (e := ⟨f, session, .revert item version r.revision.id⟩)
    (p := ⟨g, session, .publish item version message⟩) rfl rfl rfl hc hhead hsync hentry
  refine ⟨reply_revert h.known naming rfl hc hentry, ?_, ?_⟩
  · rw [reply, hpublished]
    rfl
  · rw [restoring, afterServing_cons, afterServing_cons, afterServing_nil, Store.serve, hpublished,
      stateOf_ok]

/-- **Every publication can be restored** from a copy that is up to date, and the copy is so again then. -/
theorem restored (h : s.Orderly P past) (hconsistent : s.Consistent) (naming : Calculator)
    (message : String) (f g : Fresh)
    (hcurrent : (s.shelf session.tenant item).Current session.user version)
    (hr : r ∈ (s.shelf session.tenant item).entries version) :
    let s' := s.afterServing naming (restoring session item version r.revision.id message f g)
    s.Restored naming session item version message r f g s' ∧
      (s'.shelf session.tenant item).Current session.user version := by
  obtain ⟨hreverted, hpublished, hafter⟩ :=
    h.afterServing_restoring hconsistent naming message f g hcurrent hr
  intro s'
  obtain ⟨c, hc, -⟩ := hcurrent
  obtain ⟨x, hx⟩ := h.known.item_of_copy hc
  have hs' : s' = s.putShelf session.tenant item _ := hafter
  have hshelf : s'.shelf session.tenant item = (s.shelf session.tenant item).published g session.user
      version message (r.content.restored f.clock.revert) := by rw [hs', shelf_putShelf_self]
  have hitem : s'.item? session.tenant item = some x := by rw [hs', item?_putShelf, hx]
  have hhead : (s'.shelf session.tenant item).head? version
      = some ⟨⟨g.revision, message, g.clock.publish, session.user⟩, r.content.restored f.clock.revert⟩ := by
    rw [hshelf, Shelf.head?_published, if_pos rfl]
  constructor
  · refine ⟨hreverted, hpublished, rfl, ?entries, ?elsewhere, ?seen⟩
    case entries =>
      rw [hshelf, Shelf.entries_published, if_pos rfl]
      rfl
    case elsewhere =>
      intro t i v helsewhere
      rw [hs', shelf_putShelf]
      split
      · rename_i hplace
        obtain ⟨rfl, rfl⟩ := hplace
        rw [Shelf.entries_published, if_neg fun hv => helsewhere ⟨rfl, rfl, hv⟩]
      · rfl
    case seen =>
      intro user d e clean
      obtain ⟨hcleaned, hread⟩ := read_afresh ⟨user, session.tenant⟩ hitem hhead naming d e
      exact ⟨hcleaned, _, hread, rfl, rfl⟩
  · refine ⟨⟨r.content.restored f.clock.revert, some g.revision, false, false⟩, ?_, ?_⟩
    · rw [hshelf, Shelf.copy?_published, if_pos ⟨rfl, rfl⟩]
    · rw [hhead]
      exact Shelf.syncState_eq_upToDate.2 ⟨rfl, rfl⟩

end Orderly

/-- **Every revision can be restored, and the former head after it.** Take any history of requests of any users,
a user whose copy of a version is up to date then, and any publication of the version.

* To revert to it and to publish succeeds. That adds one publication at the end, whose content is the restored
  one but for the time of its last change, and nothing that was published before changes.
* Everybody of the tenant who throws the own copy away and reads the version then gets the description and the
  properties that were restored.
* If the user then restores in the same way what was the head before, all this holds of that. -/
theorem every_revision_restored (naming : Calculator) {history : List (Event Request)} (session : Session)
    (item version message message' : String) {r head : Entry} {f g f' g' : Fresh}
    (hfresh : FreshIds (history ++ restoring session item version r.revision.id message f g ++
      restoring session item version head.revision.id message' f' g'))
    (hcurrent : ((Store.empty.afterServing naming history).shelf session.tenant item).Current
      session.user version)
    (hr : r ∈ ((Store.empty.afterServing naming history).shelf session.tenant item).entries version)
    (hhead : ((Store.empty.afterServing naming history).shelf session.tenant item).head? version
      = some head) :
    let s := Store.empty.afterServing naming history
    ∃ s' s'', s.Restored naming session item version message r f g s' ∧
      s'.Restored naming session item version message' head f' g' s'' := by
  intro s
  have horderly := orderly_afterServing naming hfresh.left.left
  have hconsistent := consistent_afterServing naming hfresh.left.left
  obtain ⟨hrestored, hcurrent'⟩ :=
    horderly.restored hconsistent naming message f g hcurrent hr
  have horderly' := orderly_afterServing naming hfresh.left
  have hconsistent' := consistent_afterServing naming hfresh.left
  rw [afterServing_append] at horderly' hconsistent'
  have hhead' : head ∈ ((s.afterServing naming (restoring session item version r.revision.id message
      f g)).shelf session.tenant item).entries version := by
    rw [hrestored.entries]
    exact List.mem_append_left _ (Shelf.mem_entries_of_head? hhead)
  obtain ⟨hagain, -⟩ := horderly'.restored hconsistent' naming message' f' g' hcurrent' hhead'
  exact ⟨_, _, hrestored, hagain⟩

/-- A version is described twice. -/
def describedTwice : List (Event Request) :=
  [⟨⟨"i1", "v1", "r1", noon⟩, ⟨"alice", "acme"⟩, .createItem Item.blank⟩,
    ⟨⟨"i2", "v2", "r2", noon⟩, ⟨"alice", "acme"⟩,
      .createVersion "i1" none { Version.blank with description := "first" } .major⟩,
    ⟨⟨"i3", "v3", "r3", noon⟩, ⟨"alice", "acme"⟩,
      .updateVersion "i1" "v2" { Version.blank with description := "second" }⟩,
    ⟨⟨"i4", "v4", "r4", noon⟩, ⟨"alice", "acme"⟩, .publish "i1" "v2" "second"⟩]

/-- The first description is restored, and the second one after it. -/
theorem descriptions_restored :
    let s := Store.empty.afterServing .standard describedTwice
    let alice : Session := ⟨"alice", "acme"⟩
    let f : Fresh := ⟨"i5", "v5", "r5", noon⟩
    let g : Fresh := ⟨"i6", "v6", "r6", noon⟩
    let f' : Fresh := ⟨"i7", "v7", "r7", noon⟩
    let g' : Fresh := ⟨"i8", "v8", "r8", noon⟩
    FreshIds (describedTwice ++ restoring alice "i1" "v2" "r2" "back" f g ++
        restoring alice "i1" "v2" "r4" "forth" f' g') ∧
      ∃ r head s' s'', (s.shelf "acme" "i1").entries "v2" = [r, head] ∧
        r.content.description = "first" ∧ head.content.description = "second" ∧
        s.Restored .standard alice "i1" "v2" "back" r f g s' ∧
        s'.Restored .standard alice "i1" "v2" "forth" head f' g' s'' := by
  intro s alice f g f' g'
  have hfresh : FreshIds (describedTwice ++ restoring alice "i1" "v2" "r2" "back" f g ++
      restoring alice "i1" "v2" "r4" "forth" f' g') := by decide
  have hentries : ((s.shelf "acme" "i1").entries "v2").map
      (fun e => (e.revision.id, e.content.description)) = [("r2", "first"), ("r4", "second")] := by
    decide +kernel
  obtain ⟨r, _, hr, hfirst, htail⟩ := List.map_eq_cons_iff.1 hentries
  obtain ⟨head, _, rfl, hsecond, htail⟩ := List.map_eq_cons_iff.1 htail
  obtain rfl := List.map_eq_nil_iff.1 htail
  simp only [Prod.mk.injEq] at hfirst hsecond
  have hsync : ((s.shelf "acme" "i1").copy? "alice" "v2").map
      (·.syncState ((s.shelf "acme" "i1").head? "v2")) = some .upToDate := by decide +kernel
  obtain ⟨c, hc, hsync⟩ := Option.map_eq_some_iff.1 hsync
  have hhead : (s.shelf "acme" "i1").head? "v2" = some head := by rw [Shelf.head?_eq, hr]; rfl
  obtain ⟨s', s'', hrestored, hagain⟩ := every_revision_restored .standard alice "i1" "v2" "back"
    "forth" (by rw [hfirst.1, hsecond.1]; exact hfresh) ⟨c, hc, hsync⟩ (hr ▸ List.mem_cons_self) hhead
  exact ⟨hfresh, r, head, s', s'', hr, hfirst.2, hsecond.2, hrestored, hagain⟩

end Store

end VersionCatalog
