import VersionCatalog.Proofs.Listings
import VersionCatalog.Proofs.Reading

/-!
# Offers

A listing offers the major step from a version, or not, by what is shared; who takes the step starts from the
user's own copy. Both come to the same as long as the user has no edits: what the engine then reads of a
version has the name and the status of the head, because it is the head's content, or is out of date and
shown with the head's status (`Versions.get_of_clean`). And no name is in anybody's copy that is not the name
of a shared version, so the store's check of names asks for no more than the listing does.

## Main results

* `Versions.get_of_clean`: what a user without edits reads of a version.
* `Store.Orderly.create_of_clean`: when a user without edits can take the major step.
* `Store.offered_iff_accepted`: what is offered is what is accepted, after every history.
-/

namespace VersionCatalog

open Calculator (OpensMajor offeredSteps)

variable {P : VersionStatus → VersionStatus → Prop} {past : List Fresh} {f : Fresh}
  {session : Session} {item version : String} {s : Store} {e : Entry}

namespace Shelf

variable {s : Shelf} {user name : String}

/-- A name is used only by the versions that are shared. -/
theorem Sound.usesName_iff (h : s.Sound P) : s.usesName name = true ↔ name ∈ s.names := by
  rw [Shelf.usesName_iff, mem_names]
  constructor
  · rintro (hhead | ⟨user, version, c, hc, hname⟩)
    · exact hhead
    · obtain ⟨e, he⟩ := h.head_of_copy hc
      exact ⟨version, e, he, (h.origin_of_copy hc he).name.symm.trans hname⟩
  · exact .inl

/-- What is shared has its names, whatever copies there are. -/
theorem names_of_shared {s' : Shelf} (h : s'.shared = s.shared) : s'.names = s.names := by
  simp only [names, list, heads, h]

end Shelf

/-! ### Reading without edits -/

namespace Versions

/-- **What a user without edits reads of a version**: its head's name and status. What is shared stays. -/
theorem get_of_clean (horderly : s.Orderly P past) (hconsistent : s.Consistent)
    (he : (s.shelf session.tenant item).head? version = some e)
    (hclean : ∀ c, (s.shelf session.tenant item).copy? session.user version = some c →
      c.dirty = false) :
    ∃ v s', get (Memory.backend f) session item version s = .ok v s' ∧ v.id = version ∧
      v.name = e.content.name ∧ v.status = e.content.status ∧
      (s'.shelf session.tenant item).shared = (s.shelf session.tenant item).shared := by
  have hsound := horderly.sound session.tenant item
  have hreads := reads hconsistent f session item version
  generalize get (Memory.backend f) session item version s = result at hreads
  cases hreads with
  | missing _ hhead => exact absurd (he.symm.trans hhead) (by simp)
  | pulled hhead =>
      obtain rfl := Option.some.inj (he.symm.trans hhead)
      refine ⟨_, _, rfl, hsound.id_of_head he, rfl, rfl, ?_⟩
      rw [Store.shelf_putShelf_self]
      rfl
  | kept hget =>
      obtain ⟨c, d, hc, hd, hid, hname, hcurrent, hbehind⟩ := hsound.of_get? hget
      obtain rfl := Option.some.inj (he.symm.trans hd)
      refine ⟨_, s, rfl, hid, hname.trans (hsound.origin_of_copy hc he).name, ?_, rfl⟩
      by_cases hsync : c.syncState (some e) = .upToDate
      · obtain ⟨d, hd, hcontent⟩ := (hconsistent.shelf session.tenant item).content_of_clean
          (hconsistent.revisions.once ..) hc (hclean c hc) (he ▸ hsync)
        obtain rfl := Option.some.inj (he.symm.trans hd)
        rw [hcurrent hsync, hcontent]
      · exact hbehind hsync

end Versions

/-! ### Taking a step -/

namespace Versions

variable {s' : Store} {v : Version} (naming : Calculator) (request : Version) (step : Step)

/-- A draft is no base. -/
theorem create_of_draft (hget : get (Memory.backend f) session item version s = .ok v s')
    (hv : v.status = .draft) :
    create (Memory.backend f) naming session item (some version) request step s
      = .error (.validation s!"base version {v.name} must be Certified to create a new version from it")
        s' := by
  have hdraft : v.isCertified = false := by
    rw [Version.isCertified, hv]
    rfl
  have hbase : certifiedBase (Memory.backend f) session item version s = .error (.validation
      s!"base version {v.name} must be Certified to create a new version from it") s' := by
    rw [certifiedBase, bind_ok hget, hdraft]
    rfl
  rw [create_eq, Option.elim_some]
  exact bind_error (map_error hbase)

/-- From a certified base a version is made under the name that is calculated, unless a shared one has that
name. -/
theorem create_of_certified (hget : get (Memory.backend f) session item version s = .ok v s')
    (hv : v.status = .certified) :
    let b := Memory.backend f
    create b naming session item (some version) request step s =
      (Call.ofExcept (naming.calculate (some v.name) step) >>= fun name =>
        if name ∈ (s'.shelf session.tenant item).names then
          throw (.validation s!"item {item} already has a version named {name}")
        else
          createNamed b session item { Version.blank.overlay request with
            base := some v.id, name := name }) s' := by
  intro b
  have hcertified : v.isCertified = true := by
    rw [Version.isCertified, hv]
    rfl
  have hbase : (some <$> certifiedBase b session item version) s = .ok (some v) s' := by
    refine map_eq_ok.2 ⟨v, ?_, rfl⟩
    rw [certifiedBase, bind_ok hget, hcertified]
    rfl
  rw [create_eq, Option.elim_some, bind_ok hbase]
  cases hname : naming.calculate (some v.name) step with
  | error error =>
      rw [Option.map_some, hname]
      rfl
  | ok name =>
      have hlist : Call.ofStore (b.listVersions session item) s'
          = .ok (s'.shelf session.tenant item).list s' := rfl
      have hused : (s'.shelf session.tenant item).list.any (·.name == name) = true
          ↔ name ∈ (s'.shelf session.tenant item).names := by
        simp [Shelf.names]
      rw [Option.map_some, bind_ok (Call.ofExcept_ok hname s'), bind_ok (Call.ofExcept_ok rfl s'),
        bind_ok hlist]
      simp only [hused]
      rfl

end Versions

namespace Store

/-- A name that no shared version has can be given to a new one. -/
theorem Orderly.createNamed_ok (h : s.Orderly P past) (hnew : ∀ g ∈ past, g.Apart f)
    (session : Session) (he : (s.shelf session.tenant item).head? version = some e)
    {request : Version} (hname : request.name ∉ (s.shelf session.tenant item).names) :
    ∃ w s', Versions.createNamed (Memory.backend f) session item request s = .ok w s' := by
  obtain ⟨x, hx⟩ := h.known.item_of_head he
  have hunused : (s.shelf session.tenant item).usesName request.name = false := by
    rw [← Bool.not_eq_true, (h.sound session.tenant item).usesName_iff]
    exact hname
  exact ⟨_, _, h.create_ok hnew session request hx hunused⟩

/-- Whoever reads the base as certified makes a version from it, if the name that is calculated is not used. -/
theorem Orderly.create_of_get (h : s'.Orderly P past) (hnew : ∀ g ∈ past, g.Apart f) {v : Version}
    (hget : Versions.get (Memory.backend f) session item version s = .ok v s')
    (hv : v.status = .certified) (he : (s'.shelf session.tenant item).head? version = some e)
    {naming : Calculator} {step : Step} {name : String}
    (hname : naming.calculate (some v.name) step = .ok name)
    (hfree : name ∉ (s'.shelf session.tenant item).names) (request : Version) :
    ∃ w s'', Versions.create (Memory.backend f) naming session item (some version) request step s
      = .ok w s'' := by
  rw [Versions.create_of_certified naming request step hget hv,
    bind_ok (Call.ofExcept_ok hname s'), if_neg hfree]
  exact h.createNamed_ok hnew session he hfree

/-- **When a user without edits can take the major step**: just if it is open. Otherwise the request is
refused. -/
theorem Orderly.create_of_clean (horderly : s.Orderly P past) (hP : ∀ status, P status status)
    (hconsistent : s.Consistent) (hnew : ∀ g ∈ past, g.Apart f) (naming : Calculator)
    (session : Session) (hnamed : (s.shelf session.tenant item).Named)
    (he : (s.shelf session.tenant item).head? version = some e)
    (hclean : ∀ c, (s.shelf session.tenant item).copy? session.user version = some c →
      c.dirty = false) (request : Version) :
    let reply := s.reply naming ⟨f, session, .createVersion item (some version) request .major⟩
    OpensMajor (s.shelf session.tenant item).names e.content ∧ (∃ w, reply = .ok (.version w)) ∨
      ¬ OpensMajor (s.shelf session.tenant item).names e.content ∧
        ∃ text, reply = .error (.validation text) := by
  intro reply
  obtain ⟨v, s', hget, -, hname, hstatus, hshared⟩ :=
    Versions.get_of_clean (f := f) horderly hconsistent he hclean
  have horderly' := (horderly.get hP hnew session item version).2
  rw [hget, stateOf_ok] at horderly'
  obtain ⟨n, hn⟩ := hnamed he
  have hnames := Shelf.names_of_shared hshared
  have hreply : reply = (answerOf (Versions.create (Memory.backend f) naming session item
      (some version) request .major s)).map .version := answerOf_map ..
  rw [Calculator.opensMajor_iff hn]
  cases he' : e.content.status with
  | draft =>
      refine .inr ⟨by simp, ?_⟩
      rw [hreply, Versions.create_of_draft naming request .major hget (hstatus.trans he')]
      exact ⟨_, rfl⟩
  | certified =>
      have hv := hstatus.trans he'
      have hcreate := Versions.create_of_certified naming request .major hget hv
      rw [hname, hn, hnames] at hcreate
      rw [hreply]
      cases hnext : n.next? .major with
      | none =>
          refine .inr ⟨by simp, ?_⟩
          rw [hcreate, Calculator.calculate_of_last hnext]
          exact ⟨_, rfl⟩
      | some m =>
          have hcalculated : naming.calculate (some n.toText) .major = .ok m.toText :=
            Calculator.calculate_of_next? hnext
          by_cases hm : m.toText ∈ (s.shelf session.tenant item).names
          · refine .inr ⟨by simp [hm], ?_⟩
            rw [hcreate, bind_ok (Call.ofExcept_ok hcalculated s'), if_pos hm]
            exact ⟨_, rfl⟩
          · refine .inl ⟨⟨rfl, m, rfl, hm⟩, ?_⟩
            have hhead : (s'.shelf session.tenant item).head? version = some e := by
              rw [Shelf.head?, hshared]
              exact he
            rw [← hn, ← hname] at hcalculated
            obtain ⟨w, s'', hw⟩ :=
              horderly'.create_of_get hnew hget hv hhead hcalculated (hnames ▸ hm) request
            rw [hw]
            exact ⟨w, rfl⟩

variable {history : List (Event Request)}

/-- **What is offered is what is accepted.** Whatever was requested before, with new ids: if the engine lists
the versions of an item, and a user of the tenant has no edits of one of them, then the list offers the major
step from that version just if the engine makes a version for the user who takes it now. From every other
version it offers no step, and the user who takes one is told that the request is not valid. -/
theorem offered_iff_accepted (naming : Calculator) (hfresh : FreshIds history) {f g : Fresh}
    (hnew : ∀ past ∈ history.map (·.fresh), past.Apart g) {session : Session} {vs : List Version}
    (hlist : (empty.afterServing naming history).reply naming ⟨f, session, .listVersions item⟩
      = .ok (.versions vs))
    {x : Version} (hx : x ∈ vs) {user : String}
    (hclean : ∀ c, ((empty.afterServing naming history).shelf session.tenant item).copy? user x.id
      = some c → c.dirty = false) (request : Version) :
    let offered := x.properties.get? offeredSteps
    let reply := (empty.afterServing naming history).reply naming
      ⟨g, ⟨user, session.tenant⟩, .createVersion item (some x.id) request .major⟩
    (offered = some (.list [.text "major"]) ↔ ∃ w, reply = .ok (.version w)) ∧
      (offered ≠ some (.list [.text "major"]) →
        offered = some (.list []) ∧ ∃ text, reply = .error (.validation text)) := by
  obtain ⟨horderly, hnamed⟩ := named_afterServing naming hfresh
  have hconsistent := consistent_afterServing naming hfresh
  generalize empty.afterServing naming history = s at *
  intro offered reply
  have hshelf := hnamed session.tenant item
  have hvs : (s.shelf session.tenant item).list.mapM
      (naming.annotate (s.shelf session.tenant item).names) = .ok vs := by
    rw [reply_listVersions] at hlist
    cases hresult : (s.shelf session.tenant item).list.mapM
        (naming.annotate (s.shelf session.tenant item).names) with
    | error error =>
        rw [hresult] at hlist
        cases hlist
    | ok ys =>
        rw [hresult] at hlist
        cases hlist
        rfl
  -- the version is listed with what it offers
  have hlisting := (Shelf.listing_of_mapM hshelf (horderly.sound session.tenant item).id_of_head hvs).2
  obtain ⟨e, steps, he, rfl, hsteps⟩ := hlisting.entry x hx
  have hoffered : offered = some (.list (steps.map fun step => .text step.name)) :=
    Keyed.get?_insert_self ..
  have hreply := horderly.create_of_clean anyStatus_self hconsistent hnew naming
    ⟨user, session.tenant⟩ hshelf he hclean request
  rw [hoffered]
  rcases hsteps with ⟨hopen, rfl⟩ | ⟨hclosed, rfl⟩
  · obtain ⟨-, w, hw⟩ := hreply.resolve_right fun h => h.1 hopen
    exact ⟨⟨fun _ => ⟨w, hw⟩, fun _ => rfl⟩, fun hnone => absurd rfl hnone⟩
  · obtain ⟨-, text, htext⟩ := hreply.resolve_left fun h => hclosed h.1
    refine ⟨⟨fun h => ?_, ?_⟩, fun _ => ⟨rfl, text, htext⟩⟩
    · simp at h
    · rintro ⟨w, hw⟩
      cases hw.symm.trans htext

/-- The first version, as it is listed. -/
def firstListed (status : VersionStatus) (steps : List Step) : Version :=
  Content.offering { Content.blank with
    id := "v2", name := "1.0", status := status, created := some noon, modified := some noon } steps

/-- A step from the first version. -/
def succession (user : String) : Event Request :=
  ⟨⟨"i4", "v4", "r4", noon⟩, ⟨user, "acme"⟩, .createVersion "i1" (some "v2") Version.blank .major⟩

/-- The draft offers no step, and its author, whose copy has no edits, can take none. When it is certified,
the step that it offers can be taken by a user who has no copy. -/
theorem offered_when_certified :
    let draft := empty.afterServing .standard (certification.take 2)
    let certified := empty.afterServing .standard certification
    (∃ text, draft.reply .standard (succession "alice") = .error (.validation text)) ∧
      ∃ w, certified.reply .standard (succession "bob") = .ok (.version w) := by
  intro draft certified
  let listing (user : String) : Event Request :=
    ⟨(succession user).fresh, ⟨user, "acme"⟩, .listVersions "i1"⟩
  have hearly : FreshIds (certification.take 2) := by decide
  have hfresh : FreshIds certification := by decide
  constructor
  · have hlist : draft.reply .standard (listing "alice")
        = .ok (.versions [firstListed .draft []]) := by decide +kernel
    have hclean : ∀ c ∈ (draft.shelf "acme" "i1").copy? "alice" "v2", c.dirty = false := by
      decide +kernel
    exact ((offered_iff_accepted .standard hearly (by decide) hlist (List.mem_singleton_self _) hclean
      Version.blank).2 (by decide +kernel)).2
  · have hlist : certified.reply .standard (listing "bob")
        = .ok (.versions [firstListed .certified [.major]]) := by decide +kernel
    have hnone : (certified.shelf "acme" "i1").copy? "bob" "v2" = none := by decide +kernel
    exact (offered_iff_accepted .standard hfresh (by decide) hlist (List.mem_singleton_self _)
      (fun c hc => absurd (hnone.symm.trans hc) (by simp)) Version.blank).1.1 rfl

end Store

end VersionCatalog
