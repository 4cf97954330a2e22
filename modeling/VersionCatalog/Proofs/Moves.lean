import Mathlib.Logic.Relation
import VersionCatalog.Proofs.KnownIds

/-!
# What the engine does to an item

The engine never leaves a version half made: what it does to an item and its versions comes down to a few
moves (`Holding.Move`), some of which are several calls of the store. A new version is published and
counted in the move that makes it, and the status of a version and the count of it change in one move.

What holds of an item and its versions between the engine's moves is `Shelf.Sound`. It is stated for a
relation `P` between the status of a head and that of a copy which was made from it and edited since; only a
restored revision can bring another status into such a copy.

## Main results

* `Shelf.Sound.move`: every move keeps an item's versions sound.
-/

namespace VersionCatalog

/-! ### Origin -/

/-- Two contents of one version: what is never edited is the same. -/
structure Content.SameOrigin (c d : Content) : Prop where
  id : c.id = d.id
  base : c.base = d.base
  name : c.name = d.name
  created : c.created = d.created

namespace Content.SameOrigin

variable {c d e : Content}

theorem refl (c : Content) : c.SameOrigin c :=
  ⟨rfl, rfl, rfl, rfl⟩

theorem symm (h : c.SameOrigin d) : d.SameOrigin c :=
  ⟨h.id.symm, h.base.symm, h.name.symm, h.created.symm⟩

theorem trans (h : c.SameOrigin d) (h' : d.SameOrigin e) : c.SameOrigin e :=
  ⟨h.id.trans h'.id, h.base.trans h'.base, h.name.trans h'.name, h.created.trans h'.created⟩

theorem restored (c : Content) (now : Instant) : (c.restored now).SameOrigin c :=
  ⟨rfl, rfl, rfl, rfl⟩

theorem edited (c : Content) {v : Version} (h : v.name = c.name) (now : Instant) :
    (c.edited v now).SameOrigin c :=
  ⟨rfl, rfl, h, rfl⟩

end Content.SameOrigin

/-! ### Publishing -/

namespace Shelf

/-- The shelf after a user has published a content as the latest of a version. -/
def published (s : Shelf) (f : Fresh) (user version message : String) (content : Content) : Shelf :=
  (s.append version ⟨⟨f.revision, message, f.clock.publish, user⟩, content⟩).putCopy user version
    ⟨content, some f.revision, false, false⟩

variable {s s' : Shelf} {f : Fresh} {user version message u v : String} {content : Content}

theorem entries_published : (s.published f user version message content).entries v =
    if v = version then s.entries v ++ [⟨⟨f.revision, message, f.clock.publish, user⟩, content⟩]
    else s.entries v := by
  rw [published, entries_putCopy, entries_append]

theorem head?_published : (s.published f user version message content).head? v =
    if v = version then some ⟨⟨f.revision, message, f.clock.publish, user⟩, content⟩ else s.head? v := by
  rw [published, head?_putCopy, head?_append]

theorem copy?_published : (s.published f user version message content).copy? u v =
    if u = user ∧ v = version then some ⟨content, some f.revision, false, false⟩
    else s.copy? u v := by
  rw [published, copy?_putCopy, copy?_append]

/-- Each entry, head and copy after that is the new one, or was there before. -/
theorem mem_entries_published {e : Entry}
    (h : e ∈ (s.published f user version message content).entries v) :
    v = version ∧ e = ⟨⟨f.revision, message, f.clock.publish, user⟩, content⟩ ∨ e ∈ s.entries v := by
  rw [entries_published] at h
  split at h
  case isTrue hv => exact (List.mem_append.1 h).symm.imp_left fun he => ⟨hv, List.mem_singleton.1 he⟩
  case isFalse => exact .inr h

theorem head?_published_cases {e : Entry}
    (h : (s.published f user version message content).head? v = some e) :
    v = version ∧ e = ⟨⟨f.revision, message, f.clock.publish, user⟩, content⟩ ∨
      v ≠ version ∧ s.head? v = some e := by
  rw [head?_published] at h
  split at h
  case isTrue hv => exact .inl ⟨hv, (Option.some.inj h).symm⟩
  case isFalse hv => exact .inr ⟨hv, h⟩

theorem copy?_published_cases {c : WorkingCopy}
    (h : (s.published f user version message content).copy? u v = some c) :
    v = version ∧ c = ⟨content, some f.revision, false, false⟩ ∨ s.copy? u v = some c := by
  rw [copy?_published] at h
  split at h
  case isTrue hplace => exact .inl ⟨hplace.2, (Option.some.inj h).symm⟩
  case isFalse => exact .inr h

/-- What was just published is what the user is shown. -/
theorem get?_published : (s.published f user version message content).get? user version
    = some ⟨content, some ⟨.upToDate, false⟩⟩ :=
  get?_putCopy_head (e := ⟨⟨f.revision, message, f.clock.publish, user⟩, content⟩)
    (by rw [head?_append, if_pos rfl])

/-- The copy that is published may have been put just before. -/
theorem putCopy_append_putCopy (s : Shelf) (user version : String) (c d : WorkingCopy) (e : Entry) :
    ((s.putCopy user version c).append version e).putCopy user version d
      = (s.append version e).putCopy user version d := by
  simp [putCopy, append, Keyed.getD_insert]

/-! ### Sound shelves -/

/-- What holds of an item's versions. Copies are made of shared versions only. All that was ever stored of a
version has one origin, and the shared names differ. A copy made from the head has a status that `P`
allows beside the head's. -/
structure Sound (P : VersionStatus → VersionStatus → Prop) (s : Shelf) : Prop where
  head_of_copy : ∀ {user version : String} {c : WorkingCopy}, s.copy? user version = some c →
    ∃ e, s.head? version = some e
  id_of_head : ∀ {version : String} {e : Entry}, s.head? version = some e → e.content.id = version
  origin_of_entry : ∀ {version : String} {e head : Entry}, e ∈ s.entries version →
    s.head? version = some head → e.content.SameOrigin head.content
  origin_of_copy : ∀ {user version : String} {c : WorkingCopy} {head : Entry},
    s.copy? user version = some c → s.head? version = some head →
      c.content.SameOrigin head.content
  eq_of_name : ∀ {v w : String} {d e : Entry}, s.head? v = some d → s.head? w = some e →
    d.content.name = e.content.name → v = w
  steady : ∀ {user version : String} {c : WorkingCopy} {head : Entry},
    s.copy? user version = some c → s.head? version = some head →
      c.syncState (some head) = .upToDate → P head.content.status c.content.status

namespace Sound

variable {P : VersionStatus → VersionStatus → Prop}

theorem empty : Shelf.empty.Sound P where
  head_of_copy h := by simp at h
  id_of_head h := by simp at h
  origin_of_entry h := by simp at h
  origin_of_copy h := by simp at h
  eq_of_name h := by simp at h
  steady h := by simp at h

theorem alike (h : s.Sound P) (halike : s.Alike s') : s'.Sound P where
  head_of_copy hc := by
    rw [← halike.head?]
    exact h.head_of_copy (by rwa [halike.copy?])
  id_of_head he := h.id_of_head (by rwa [halike.head?])
  origin_of_entry he hhead :=
    h.origin_of_entry (by rwa [halike.entries]) (by rwa [halike.head?])
  origin_of_copy hc hhead := h.origin_of_copy (by rwa [halike.copy?]) (by rwa [halike.head?])
  eq_of_name hd he := h.eq_of_name (by rwa [halike.head?]) (by rwa [halike.head?])
  steady hc hhead := h.steady (by rwa [halike.copy?]) (by rwa [halike.head?])

/-- What is restored in a copy has the copy's origin, as all that was ever published of the version. -/
theorem origin_restored (h : s.Sound P) {c : WorkingCopy} {e head : Entry} (now : Instant)
    (hcopy : s.copy? user version = some c) (hhead : s.head? version = some head)
    (he : e ∈ s.entries version) : (e.content.restored now).SameOrigin c.content :=
  ((Content.SameOrigin.restored _ _).trans (h.origin_of_entry he hhead)).trans
    (h.origin_of_copy hcopy hhead).symm

/-- What is allowed may be more. -/
theorem mono {Q : VersionStatus → VersionStatus → Prop} (h : s.Sound P)
    (hPQ : ∀ {a b}, P a b → Q a b) : s.Sound Q :=
  { h with steady := fun hc hhead hsync => hPQ (h.steady hc hhead hsync) }

/-- A copy of a shared version may be put, if it has its origin and a status that is allowed. -/
theorem putCopy (h : s.Sound P) {e : Entry} {c : WorkingCopy} (hhead : s.head? version = some e)
    (horigin : c.content.SameOrigin e.content)
    (hsteady : c.syncState (some e) = .upToDate → P e.content.status c.content.status) :
    (s.putCopy user version c).Sound P where
  head_of_copy {u v d} hd := by
    rw [copy?_putCopy] at hd
    split at hd
    · rename_i hplace
      exact ⟨e, by rw [head?_putCopy, hplace.2, hhead]⟩
    · exact h.head_of_copy hd
  id_of_head hd := h.id_of_head hd
  origin_of_entry hd hhead := h.origin_of_entry hd hhead
  origin_of_copy {u v d head} hd hhead' := by
    rw [copy?_putCopy] at hd
    split at hd
    · rename_i hplace
      rw [head?_putCopy, hplace.2, hhead] at hhead'
      rw [← Option.some.inj hd, ← Option.some.inj hhead']
      exact horigin
    · exact h.origin_of_copy hd hhead'
  eq_of_name hd he := h.eq_of_name hd he
  steady {u v d head} hd hhead' := by
    rw [copy?_putCopy] at hd
    split at hd
    · rename_i hplace
      rw [head?_putCopy, hplace.2, hhead] at hhead'
      rw [← Option.some.inj hd, ← Option.some.inj hhead']
      exact hsteady
    · exact h.steady hd hhead'

theorem dropCopy (h : s.Sound P) : (s.dropCopy user version).Sound P where
  head_of_copy hd := by
    rw [copy?_dropCopy] at hd
    split at hd
    · exact absurd hd (by simp)
    · rw [head?_dropCopy]
      exact h.head_of_copy hd
  id_of_head hd := h.id_of_head (by rwa [head?_dropCopy] at hd)
  origin_of_entry hd hhead :=
    h.origin_of_entry (by rwa [entries_dropCopy] at hd) (by rwa [head?_dropCopy] at hhead)
  origin_of_copy hd hhead := by
    rw [copy?_dropCopy] at hd
    split at hd
    · exact absurd hd (by simp)
    · exact h.origin_of_copy hd (by rwa [head?_dropCopy] at hhead)
  eq_of_name hd he :=
    h.eq_of_name (by rwa [head?_dropCopy] at hd) (by rwa [head?_dropCopy] at he)
  steady hd hhead := by
    rw [copy?_dropCopy] at hd
    split at hd
    · exact absurd hd (by simp)
    · exact h.steady hd (by rwa [head?_dropCopy] at hhead)

/-- What is published with the version's origin has the origin of all entries and copies. -/
theorem origin_of_entry_published (h : s.Sound P) {e : Entry}
    (horigin : ∀ {e}, s.head? version = some e → content.SameOrigin e.content)
    (he : e ∈ (s.published f user version message content).entries version) :
    e.content.SameOrigin content := by
  rcases mem_entries_published he with ⟨-, rfl⟩ | he
  · exact .refl _
  · cases hhead : s.head? version with
    | none =>
        rw [entries_eq_nil_of_head? hhead] at he
        exact absurd he List.not_mem_nil
    | some head => exact (h.origin_of_entry he hhead).trans (horigin hhead).symm

theorem origin_of_copy_published (h : s.Sound P) {c : WorkingCopy}
    (horigin : ∀ {e}, s.head? version = some e → content.SameOrigin e.content)
    (hc : (s.published f user version message content).copy? u version = some c) :
    c.content.SameOrigin content := by
  rcases copy?_published_cases hc with ⟨-, rfl⟩ | hc
  · exact .refl _
  · obtain ⟨head, hhead⟩ := h.head_of_copy hc
    exact (h.origin_of_copy hc hhead).trans (horigin hhead).symm

/-- If no other version has the name of what is published, the shared names still differ. -/
theorem eq_of_name_published (h : s.Sound P) {v w : String} {d e : Entry}
    (hname : ∀ {w e}, s.head? w = some e → e.content.name = content.name → w = version)
    (hd : (s.published f user version message content).head? v = some d)
    (he : (s.published f user version message content).head? w = some e)
    (heq : d.content.name = e.content.name) : v = w := by
  rcases head?_published_cases hd with ⟨hv, rfl⟩ | ⟨-, hold⟩
  · rcases head?_published_cases he with ⟨hw, rfl⟩ | ⟨-, hold⟩
    · rw [hv, hw]
    · rw [hv, hname hold heq.symm]
  · rcases head?_published_cases he with ⟨hw, rfl⟩ | ⟨-, hold'⟩
    · rw [hw, hname hold heq]
    · exact h.eq_of_name hold hold' heq

/-- The user's copy is up to date after that, and no other copy is. -/
theorem steady_published (h : s.Sound P) (hP : ∀ status, P status status) {c : WorkingCopy}
    {head : Entry} (hnew : ∀ {u d}, s.copy? u version = some d → d.synced ≠ some f.revision)
    (hc : (s.published f user version message content).copy? u v = some c)
    (hhead : (s.published f user version message content).head? v = some head)
    (hsync : c.syncState (some head) = .upToDate) : P head.content.status c.content.status := by
  rcases head?_published_cases hhead with ⟨rfl, rfl⟩ | ⟨hv, hhead⟩
  · rcases copy?_published_cases hc with ⟨-, rfl⟩ | hc
    · exact hP _
    · -- it was made from an earlier revision
      exact absurd (syncState_eq_upToDate.1 hsync).2 (hnew hc)
  · exact h.steady ((copy?_published_cases hc).resolve_left fun hsame => hv hsame.1) hhead hsync

/-- A content may be published under a new revision id, if it has the version's origin, or is the first one
and has a new name. No other copy is made from it. -/
theorem published (h : s.Sound P) (hP : ∀ status, P status status) (hid : content.id = version)
    (hnew : ∀ {u d}, s.copy? u version = some d → d.synced ≠ some f.revision)
    (horigin : ∀ {e}, s.head? version = some e → content.SameOrigin e.content)
    (hname : ∀ {w e}, s.head? w = some e → e.content.name = content.name → w = version) :
    (s.published f user version message content).Sound P where
  head_of_copy {u v c} hc := by
    rw [head?_published]
    split
    case isTrue => exact ⟨_, rfl⟩
    case isFalse hv =>
      exact h.head_of_copy ((copy?_published_cases hc).resolve_left fun hsame => hv hsame.1)
  id_of_head {v e} he := by
    rcases head?_published_cases he with ⟨rfl, rfl⟩ | ⟨-, he⟩
    · exact hid
    · exact h.id_of_head he
  origin_of_entry {v e head} he hhead := by
    rcases head?_published_cases hhead with ⟨rfl, rfl⟩ | ⟨hv, hhead⟩
    · exact h.origin_of_entry_published horigin he
    · exact h.origin_of_entry ((mem_entries_published he).resolve_left fun hsame => hv hsame.1) hhead
  origin_of_copy {u v c head} hc hhead := by
    rcases head?_published_cases hhead with ⟨rfl, rfl⟩ | ⟨hv, hhead⟩
    · exact h.origin_of_copy_published horigin hc
    · exact h.origin_of_copy ((copy?_published_cases hc).resolve_left fun hsame => hv hsame.1) hhead
  eq_of_name hd he := h.eq_of_name_published hname hd he
  steady hc hhead := h.steady_published hP hnew hc hhead

/-- A content of the same origin may be published from a copy. -/
theorem published_of_copy (h : s.Sound P) (hP : ∀ status, P status status) {c : WorkingCopy}
    {e : Entry} (hcopy : s.copy? user version = some c) (hhead : s.head? version = some e)
    (hnew : ∀ {u d}, s.copy? u version = some d → d.synced ≠ some f.revision)
    (horigin : content.SameOrigin c.content) :
    (s.published f user version message content).Sound P := by
  have horigin := horigin.trans (h.origin_of_copy hcopy hhead)
  refine h.published hP (horigin.id.trans (h.id_of_head hhead)) hnew ?_ ?_
  · intro d hd
    obtain rfl := Option.some.inj (hhead.symm.trans hd)
    exact horigin
  · intro w d hd hname
    exact h.eq_of_name hd hhead (hname.trans horigin.name)

/-- The first content of a new version may be published under a name that is not used. -/
theorem published_new (h : s.Sound P) (hP : ∀ status, P status status) (hid : content.id = version)
    (hname : s.usesName content.name = false) (hhead : s.head? version = none)
    (hcopy : ∀ u, s.copy? u version = none) :
    (s.published f user version message content).Sound P := by
  refine h.published hP hid ?_ ?_ ?_
  · intro u d hd
    rw [hcopy u] at hd
    exact absurd hd (by simp)
  · intro e he
    rw [hhead] at he
    exact absurd he (by simp)
  · intro w e he hsame
    have hused := usesName_iff.2 (.inl ⟨w, e, he, hsame⟩)
    rw [hname] at hused
    exact absurd hused (by simp)

/-- What a user is shown of a version is the user's copy of it, with the head's status while the copy is not
up to date. -/
theorem of_get? (h : s.Sound P) {v : Version} (hget : s.get? user version = some v) :
    ∃ c e, s.copy? user version = some c ∧ s.head? version = some e ∧ v.id = version ∧
      v.name = c.content.name ∧
      (c.syncState (some e) = .upToDate → v.status = c.content.status) ∧
      (c.syncState (some e) ≠ .upToDate → v.status = e.content.status) := by
  obtain ⟨c, hc, rfl⟩ := Option.map_eq_some_iff.1 hget
  obtain ⟨e, he⟩ := h.head_of_copy hc
  have hid : c.content.id = version := (h.origin_of_copy hc he).id.trans (h.id_of_head he)
  refine ⟨c, e, hc, he, hid, rfl, fun hsync => ?_, fun hsync => ?_⟩
  · simp only [he, hsync, if_true]
  · simp only [he, hsync, if_false, Option.map_some, Option.getD_some]

end Sound

end Shelf

/-! ### Moves -/

/-- An item, if it is there, and its versions. -/
structure Holding where
  item : Option Item
  shelf : Shelf

namespace Holding

/-- A move of the engine, made for a user with what `f` supplies, on an item that stays there. -/
inductive Move (P : VersionStatus → VersionStatus → Prop) (f : Fresh) (user : String) :
    Holding → Holding → Prop
  /-- Nothing that is ever looked at changes. -/
  | idle {x : Option Item} {s s' : Shelf} (halike : s.Alike s') : Move P f user ⟨x, s⟩ ⟨x, s'⟩
  /-- The item is described anew; its tally stays. -/
  | describe {x y : Item} {s : Shelf} (htally : y.tally = x.tally) :
      Move P f user ⟨some x, s⟩ ⟨some y, s⟩
  /-- The user's copy becomes the head's. -/
  | take {x : Option Item} {s : Shelf} {version : String} {e : Entry}
      (hhead : s.head? version = some e) :
      Move P f user ⟨x, s⟩ ⟨x, s.putCopy user version (.ofEntry e)⟩
  /-- The user's copy, which is behind, starts to merge. -/
  | merge {x : Option Item} {s : Shelf} {version : String} {c : WorkingCopy}
      (hcopy : s.copy? user version = some c) :
      Move P f user ⟨x, s⟩ ⟨x, s.putCopy user version { c with merging := true }⟩
  /-- The user's copy is edited, with a status that is allowed if it was made from the head. -/
  | edit {x : Option Item} {s : Shelf} {version : String} {c : WorkingCopy} {content : Content}
      (hcopy : s.copy? user version = some c) (horigin : content.SameOrigin c.content)
      (hstatus : ∀ {e}, s.head? version = some e → c.syncState (some e) = .upToDate →
        P e.content.status content.status) :
      Move P f user ⟨x, s⟩
        ⟨x, s.putCopy user version { c with content := content, dirty := true }⟩
  /-- The user's copy is thrown away. -/
  | drop {x : Option Item} {s : Shelf} {version : String} :
      Move P f user ⟨x, s⟩ ⟨x, s.dropCopy user version⟩
  /-- The user's copy, which was made from the head, is published. -/
  | publish {x : Option Item} {s : Shelf} {version message : String} {c : WorkingCopy} {e : Entry}
      (hcopy : s.copy? user version = some c) (hhead : s.head? version = some e)
      (hcurrent : c.syncState (some e) = .upToDate)
      (hnew : ∀ {u d}, s.copy? u version = some d → d.synced ≠ some f.revision) :
      Move P f user ⟨x, s⟩ ⟨x, s.published f user version message c.content⟩
  /-- The user's copy, which was made from the head and is a draft, is published as certified, and the item
  counts it so. -/
  | certify {x y : Item} {s : Shelf} {version message : String} {c : WorkingCopy} {e : Entry}
      {content : Content} (hcopy : s.copy? user version = some c)
      (hhead : s.head? version = some e) (hcurrent : c.syncState (some e) = .upToDate)
      (hnew : ∀ {u d}, s.copy? u version = some d → d.synced ≠ some f.revision)
      (horigin : content.SameOrigin c.content) (hdraft : P e.content.status .draft)
      (hcertified : content.status = .certified)
      (htally : y.tally = (x.tally.add .certified).remove .draft) :
      Move P f user ⟨some x, s⟩ ⟨some y, s.published f user version message content⟩
  /-- A draft is made under a new id and a new name, and the item counts it. -/
  | create {x y : Item} {s : Shelf} {message : String} {content : Content}
      (hid : content.id = f.version) (hdraft : content.status = .draft)
      (hname : s.usesName content.name = false) (hhead : s.head? f.version = none)
      (hcopy : ∀ u, s.copy? u f.version = none) (htally : y.tally = x.tally.add .draft) :
      Move P f user ⟨some x, s⟩ ⟨some y, s.published f user f.version message content⟩

/-- What a request of the engine can make of an item and its versions. -/
inductive Change (P : VersionStatus → VersionStatus → Prop) (f : Fresh) (user : String) :
    Holding → Holding → Prop
  /-- The engine makes moves. -/
  | moves {h h' : Holding} (hmoves : Relation.ReflTransGen (Move P f user) h h') :
      Change P f user h h'
  /-- The item is made, without versions. -/
  | make {y : Item} (htally : y.tally = ∅) : Change P f user ⟨none, .empty⟩ ⟨some y, .empty⟩
  /-- The item is deleted with its versions. -/
  | delete {h : Holding} : Change P f user h ⟨none, .empty⟩

end Holding

namespace Shelf.Sound

variable {P : VersionStatus → VersionStatus → Prop} {f : Fresh} {user : String} {h h' : Holding}

/-- **A move keeps an item's versions sound.** -/
theorem move (hsound : h.shelf.Sound P) (hP : ∀ status, P status status)
    (hmove : Holding.Move P f user h h') : h'.shelf.Sound P := by
  cases hmove with
  | idle halike => exact hsound.alike halike
  | describe => exact hsound
  | take hhead => exact hsound.putCopy hhead (.refl _) fun _ => hP _
  | @merge x s version c hcopy =>
      obtain ⟨e, he⟩ := hsound.head_of_copy hcopy
      have horigin := hsound.origin_of_copy hcopy he
      refine hsound.putCopy he horigin fun hsync => ?_
      exact absurd (syncState_eq_upToDate.1 hsync).1 (by simp)
  | edit hcopy horigin hstatus =>
      obtain ⟨e, he⟩ := hsound.head_of_copy hcopy
      exact hsound.putCopy he (horigin.trans (hsound.origin_of_copy hcopy he)) (hstatus he)
  | drop => exact hsound.dropCopy
  | publish hcopy hhead hcurrent hnew =>
      exact hsound.published_of_copy hP hcopy hhead hnew (.refl _)
  | certify hcopy hhead hcurrent hnew horigin =>
      exact hsound.published_of_copy hP hcopy hhead hnew horigin
  | create hid hdraft hname hhead hcopy => exact hsound.published_new hP hid hname hhead hcopy

/-- Moves keep an item's versions sound. -/
theorem moves (hsound : h.shelf.Sound P) (hP : ∀ status, P status status)
    (hmoves : Relation.ReflTransGen (Holding.Move P f user) h h') : h'.shelf.Sound P := by
  induction hmoves with
  | refl => exact hsound
  | tail _ hmove ih => exact ih.move hP hmove

/-- What a request makes of sound versions is sound. -/
theorem change (hsound : h.shelf.Sound P) (hP : ∀ status, P status status)
    (hchange : Holding.Change P f user h h') : h'.shelf.Sound P := by
  cases hchange with
  | moves hmoves => exact hsound.moves hP hmoves
  | make | delete => exact .empty

end Shelf.Sound

end VersionCatalog
