import VersionCatalog.Proofs.Growth

/-!
# Where versions come from

The versions of an item form a forest (`Shelf.Forest`): all that is stored of a version, in its revisions and
in anybody's copy, names the same base, which is a shared version that was made earlier and whose name is one
step before the version's own; a version without a base is named one step after the calculator's seed. Names
have ranks, and a base's rank is less than its version's, so following the bases ends at a version without one.

The invariant is shown of the heads' origins alone (`Shelf.origin?`): what else is stored of a version has the
head's origin, and only the making of a version and the deletion of the item change the origins
(`Shelf.Growth.origin?_eq_or`).

## Main results

* `Shelf.Descends.growth`: growth keeps the origins in order.
* `Shelf.Descends.forest`: then all that is stored is a forest.
* `Shelf.Forest.exists_root`: following the bases ends.
* `Store.derivation_forest`: so it is after every history of requests.
-/

namespace VersionCatalog

open Relation (ReflTransGen TransGen)

/-! ### Forests -/

/-- Whether a name is one major or minor step after another one. -/
def VersionName.IsStepAfter (n m : VersionName) : Prop :=
  ∃ step, m.next? step = some n

namespace Shelf

/-- A content is stored of a version: it was published, or it is in somebody's copy. -/
inductive Stores (s : Shelf) (version : String) : Content → Prop
  | entry {e : Entry} (he : e ∈ s.entries version) : Stores s version e.content
  | copy {user : String} {c : WorkingCopy} (hc : s.copy? user version = some c) :
      Stores s version c.content

/-- What is stored of a version names another one as its base. -/
def DerivedFrom (s : Shelf) (version base : String) : Prop :=
  ∃ c, s.Stores version c ∧ c.base = some base

/-- All that is stored of a version tells one origin of it, and the versions are a forest of bases. -/
structure Forest (naming : Calculator) (s : Shelf) : Prop where
  id : ∀ {v : String} {c : Content}, s.Stores v c → c.id = v
  origin : ∀ {v : String} {c d : Content}, s.Stores v c → s.Stores v d → c.SameOrigin d
  name : ∀ {v : String} {c : Content}, s.Stores v c → ∃ n : VersionName, c.name = n.toText
  /-- Versions with one major and one minor number are the same version. -/
  eq_of_levels : ∀ {v w : String} {c d : Content} {m n : VersionName}, s.Stores v c → s.Stores w d →
    c.name = m.toText → d.name = n.toText → m.major = n.major → m.minor = n.minor → v = w
  root : ∀ {v : String} {c : Content}, s.Stores v c → c.base = none →
    ∃ n : VersionName, c.name = n.toText ∧ n.IsStepAfter naming.seed
  /-- A base is shared, it was made earlier, and its name is one step before. -/
  branch : ∀ {v b : String} {c : Content}, s.Stores v c → c.base = some b →
    ∃ (e : Entry) (m n : VersionName) (t u : Instant), s.head? b = some e ∧
      e.content.name = m.toText ∧ c.name = n.toText ∧ n.IsStepAfter m ∧
      e.content.created = some t ∧ c.created = some u ∧ t < u

namespace Forest

variable {naming : Calculator} {s : Shelf} {v w : String} {c : Content}

/-- A version's name has a greater rank than its base's. -/
theorem rank_lt_of_derivedFrom (h : s.Forest naming) (hvw : s.DerivedFrom v w) :
    ∃ d m n, s.Stores w d ∧ d.name = VersionName.toText m ∧ m.rank < VersionName.rank n ∧
      ∀ c, s.Stores v c → c.name = n.toText := by
  obtain ⟨c, hc, hbase⟩ := hvw
  obtain ⟨e, m, n, -, -, he, hm, hn, ⟨step, hstep⟩, -⟩ := h.branch hc hbase
  refine ⟨e.content, m, n, .entry (mem_entries_of_head? he), hm, VersionName.rank_lt_of_next? hstep,
    fun c' hc' => ?_⟩
  exact (h.origin hc' hc).name.trans hn

/-- The ranks of the names fall along the bases. -/
theorem rank_lt_of_transGen (h : s.Forest naming) (hvw : TransGen s.DerivedFrom v w) :
    ∃ d m n, s.Stores w d ∧ d.name = VersionName.toText m ∧ m.rank < VersionName.rank n ∧
      ∀ c, s.Stores v c → c.name = n.toText := by
  induction hvw with
  | single hvw => exact h.rank_lt_of_derivedFrom hvw
  | tail _ hwx ih =>
      obtain ⟨d, m, n, hd, hm, hrank, hn⟩ := ih
      obtain ⟨d', m', n', hd', hm', hrank', hn'⟩ := h.rank_lt_of_derivedFrom hwx
      obtain rfl : m = n' := VersionName.toText_injective (hm.symm.trans (hn' d hd))
      exact ⟨d', m', n, hd', hm', Nat.lt_trans hrank' hrank, hn⟩

/-- **Following the bases never comes back** to where it began. -/
theorem acyclic (h : s.Forest naming) (v : String) : ¬ TransGen s.DerivedFrom v v := by
  intro hcycle
  obtain ⟨d, m, n, hd, hm, hrank, hn⟩ := h.rank_lt_of_transGen hcycle
  obtain rfl : m = n := VersionName.toText_injective (hm.symm.trans (hn d hd))
  exact Nat.lt_irrefl _ hrank

/-- **Following the bases ends** at a version without a base. -/
theorem exists_root (h : s.Forest naming) (hc : s.Stores v c) :
    ∃ r d, ReflTransGen s.DerivedFrom v r ∧ s.Stores r d ∧ d.base = none := by
  obtain ⟨n, hn⟩ := h.name hc
  -- by induction on the rank of the name, which the next base's is less than
  induction hrank : n.rank using Nat.strongRecOn generalizing v c n with
  | ind k ih =>
      subst hrank
      cases hbase : c.base with
      | none => exact ⟨v, c, .refl, hc, hbase⟩
      | some b =>
          obtain ⟨e, m, n', -, -, he, hm, hn', ⟨step, hstep⟩, -⟩ := h.branch hc hbase
          obtain rfl : n = n' := VersionName.toText_injective (hn.symm.trans hn')
          obtain ⟨r, d, hpath, hd, hroot⟩ := ih m.rank (VersionName.rank_lt_of_next? hstep)
            (.entry (mem_entries_of_head? he)) m hm rfl
          exact ⟨r, d, .head ⟨c, hc, hbase⟩ hpath, hd, hroot⟩

end Forest

/-! ### Origins -/

/-- Where a version comes from. -/
structure Origin where
  base : Option String
  name : String
  created : Option Instant

/-- Where a content's version comes from, as the content tells. -/
def Origin.of (c : Content) : Origin :=
  ⟨c.base, c.name, c.created⟩

theorem Origin.of_eq {c d : Content} (h : c.SameOrigin d) : Origin.of c = Origin.of d := by
  rw [Origin.of, Origin.of, h.base, h.name, h.created]

/-- Where a shared version comes from. -/
def origin? (s : Shelf) (version : String) : Option Origin :=
  (s.head? version).map fun e => Origin.of e.content

variable {naming : Calculator} {past : List Fresh} {f : Fresh} {user v : String} {s s' : Shelf}
  {o : Origin}

/-- What growth does to the origins: nothing, or all versions are deleted, or one is made. -/
theorem Growth.origin?_eq_or (hgrowth : Growth naming f user s s') (h : s.Sound anyStatus) :
    (∀ v, s'.origin? v = s.origin? v) ∨ (∀ v, s'.origin? v = none) ∨
      ∃ content, content.created = some f.clock.createVersion ∧ s.Offers naming content ∧
        s.origin? f.version = none ∧
        ∀ v, s'.origin? v = if v = f.version then some (.of content) else s.origin? v := by
  cases hgrowth with
  | idle halike => exact .inl fun v => by rw [origin?, origin?, halike.head?]
  | put hhead horigin => exact .inl fun v => rfl
  | drop => exact .inl fun v => by rw [origin?, origin?, head?_dropCopy]
  | @publish version _ c e content hcopy hhead hnew horigin =>
      refine .inl fun v => ?_
      rw [origin?, origin?, head?_published]
      split
      · rename_i hv
        rw [hv, hhead]
        exact congrArg some (Origin.of_eq (horigin.trans (h.origin_of_copy hcopy hhead)))
      · rfl
  | @create _ content hid hcreated hoffers hname hhead hcopy =>
      refine .inr (.inr ⟨content, hcreated, hoffers, by rw [origin?, hhead]; rfl, fun v => ?_⟩)
      rw [origin?, origin?, head?_published]
      split <;> rfl
  | delete => exact .inr (.inl fun v => rfl)

/-- The shared versions of an item come from each other, or from the seed, by steps that were taken one
after the other. A version's id tells when it was made. -/
structure Descends (naming : Calculator) (past : List Fresh) (s : Shelf) : Prop where
  created : ∀ {v : String} {o : Origin}, s.origin? v = some o →
    ∃ g ∈ past, g.version = v ∧ o.created = some g.clock.createVersion
  root : ∀ {v : String} {o : Origin}, s.origin? v = some o → o.base = none →
    ∃ n : VersionName, o.name = n.toText ∧ n.IsStepAfter naming.seed
  branch : ∀ {v b : String} {o : Origin}, s.origin? v = some o → o.base = some b →
    ∃ (p : Origin) (m n : VersionName) (t u : Instant), s.origin? b = some p ∧
      p.name = m.toText ∧ o.name = n.toText ∧ n.IsStepAfter m ∧
      p.created = some t ∧ o.created = some u ∧ t < u

namespace Descends

theorem empty : Shelf.empty.Descends naming past where
  created h := absurd h (by simp [origin?])
  root h := absurd h (by simp [origin?])
  branch h := absurd h (by simp [origin?])

theorem mono {past' : List Fresh} (h : s.Descends naming past) (hsub : past ⊆ past') :
    s.Descends naming past' where
  created ho :=
    let ⟨g, hg, hid⟩ := h.created ho
    ⟨g, hsub hg, hid⟩
  root := h.root
  branch := h.branch

theorem of_origin? (h : s.Descends naming past) (horigin : ∀ v, s'.origin? v = s.origin? v) :
    s'.Descends naming past where
  created ho := h.created (horigin _ ▸ ho)
  root ho := h.root (horigin _ ▸ ho)
  branch {v b o} ho hbase := by
    rw [horigin v] at ho
    obtain ⟨p, m, n, t, u, hp, hnames⟩ := h.branch ho hbase
    exact ⟨p, m, n, t, u, (horigin b).trans hp, hnames⟩

/-- Every shared name is a name. -/
theorem name (h : s.Descends naming past) (ho : s.origin? v = some o) :
    ∃ n : VersionName, o.name = n.toText := by
  cases hbase : o.base with
  | none =>
      obtain ⟨n, hn, -⟩ := h.root ho hbase
      exact ⟨n, hn⟩
  | some b =>
      obtain ⟨-, -, n, -, -, -, -, hn, -⟩ := h.branch ho hbase
      exact ⟨n, hn⟩

/-- A version is made with a content that is offered, later than all others. -/
theorem create (h : s.Descends naming (past ++ [f])) (hclock : ∀ g ∈ past, g.clock.createVersion < f.clock.createVersion)
    {content : Content} (hcreated : content.created = some f.clock.createVersion)
    (hoffers : s.Offers naming content) (hfree : s.origin? f.version = none)
    (horigin : ∀ v, s'.origin? v
      = if v = f.version then some (.of content) else s.origin? v) :
    s'.Descends naming (past ++ [f]) where
  created {v o} ho := by
    rw [horigin] at ho
    split at ho
    · rename_i hv
      rw [← Option.some.inj ho, hv]
      exact ⟨f, List.mem_append_right _ List.mem_cons_self, rfl, hcreated⟩
    · exact h.created ho
  root {v o} ho hbase := by
    rw [horigin] at ho
    split at ho
    · obtain rfl := Option.some.inj ho
      cases hoffers with
      | root _ hname =>
          obtain ⟨n, hstep, hn⟩ := Calculator.calculate_none.1 hname
          exact ⟨n, hn, _, hstep⟩
      | branch hbranch => exact absurd (hbranch.symm.trans hbase) (by simp)
    · exact h.root ho hbase
  branch {v b o} ho hbase := by
    -- the origin of a version that was there is still the same
    have hkept : ∀ {p}, s.origin? b = some p → s'.origin? b = some p := by
      intro p hp
      have hb : b ≠ f.version := by
        rintro rfl
        exact absurd (hfree.symm.trans hp) (by simp)
      rw [horigin, if_neg hb, hp]
    rw [horigin] at ho
    split at ho
    · obtain rfl := Option.some.inj ho
      cases hoffers with
      | root hroot => exact absurd (hroot.symm.trans hbase) (by simp)
      | @branch base e step hbranch hhead hname =>
          obtain rfl : base = b := Option.some.inj (hbranch.symm.trans hbase)
          have hp : s.origin? base = some (.of e.content) := by rw [origin?, hhead]; rfl
          obtain ⟨m, n, hparse, hstep, hn⟩ := Calculator.calculate_some.1 hname
          obtain ⟨m', hm'⟩ := h.name hp
          obtain rfl : m' = m := by
            have hname' : e.content.name = m'.toText := hm'
            rw [hname', VersionName.parse?_toText] at hparse
            exact Option.some.inj hparse
          obtain ⟨g, hg, hid, hthen⟩ := h.created hp
          refine ⟨.of e.content, m', n, g.clock.createVersion, f.clock.createVersion, hkept hp, hm', hn, ⟨step, hstep⟩, hthen,
            hcreated, ?_⟩
          rcases List.mem_append.1 hg with hg | hg
          · exact hclock g hg
          · rw [List.mem_singleton.1 hg] at hid
            rw [← hid, hfree] at hp
            exact absurd hp (by simp)
    · obtain ⟨p, m, n, t, u, hp, hnames⟩ := h.branch ho hbase
      exact ⟨p, m, n, t, u, hkept hp, hnames⟩

/-- **Growth keeps the origins in order**, if the clock has gone on. -/
theorem growth (h : s.Descends naming (past ++ [f])) (hclock : ∀ g ∈ past, g.clock.createVersion < f.clock.createVersion)
    (hsound : s.Sound anyStatus) (hgrowth : Growth naming f user s s') :
    s'.Descends naming (past ++ [f]) := by
  rcases hgrowth.origin?_eq_or hsound with
    hsame | hnone | ⟨content, hcreated, hoffers, hfree, horigin⟩
  · exact h.of_origin? hsame
  · exact of_origin? empty fun v => (hnone v).trans rfl
  · exact h.create hclock hcreated hoffers hfree horigin

/-- Growth in many steps. -/
theorem grown (h : s.Descends naming (past ++ [f])) (hclock : ∀ g ∈ past, g.clock.createVersion < f.clock.createVersion)
    (hsound : s.Sound anyStatus) (hgrown : ReflTransGen (Growth naming f user) s s') :
    s'.Descends naming (past ++ [f]) ∧ s'.Sound anyStatus := by
  induction hgrown with
  | refl => exact ⟨h, hsound⟩
  | tail _ hgrowth ih => exact ⟨ih.1.growth hclock ih.2 hgrowth, ih.2.growth hgrowth⟩

end Descends

/-! ### All that is stored -/

/-- What is stored of a version has the origin of its head. -/
theorem Sound.head_of_stores {P : VersionStatus → VersionStatus → Prop} (h : s.Sound P)
    {c : Content} (hc : s.Stores v c) : ∃ e, s.head? v = some e ∧ c.SameOrigin e.content := by
  cases hc with
  | @entry d hd =>
      cases hhead : s.head? v with
      | none =>
          rw [entries_eq_nil_of_head? hhead] at hd
          exact absurd hd List.not_mem_nil
      | some e => exact ⟨e, rfl, h.origin_of_entry hd hhead⟩
  | copy hc =>
      obtain ⟨e, he⟩ := h.head_of_copy hc
      exact ⟨e, he, h.origin_of_copy hc he⟩

/-- **All that is stored is a forest**, if the heads descend from each other. -/
theorem Descends.forest (h : s.Descends naming past) (hsound : s.Sound anyStatus) :
    s.Forest naming := by
  have horigin : ∀ {v c}, s.Stores v c → s.origin? v = some (.of c) := by
    intro v c hc
    obtain ⟨e, he, hsame⟩ := hsound.head_of_stores hc
    rw [origin?, he, Option.map_some, Origin.of_eq hsame]
  constructor
  case id =>
    intro v c hc
    obtain ⟨e, he, hsame⟩ := hsound.head_of_stores hc
    exact hsame.id.trans (hsound.id_of_head he)
  case origin =>
    intro v c d hc hd
    obtain ⟨e, he, hsame⟩ := hsound.head_of_stores hc
    obtain ⟨e', he', hsame'⟩ := hsound.head_of_stores hd
    obtain rfl := Option.some.inj (he.symm.trans he')
    exact hsame.trans hsame'.symm
  case name =>
    intro v c hc
    exact h.name (horigin hc)
  case eq_of_levels =>
    intro v w c d m n hc hd hm hn hmajor hminor
    obtain ⟨e, he, hsame⟩ := hsound.head_of_stores hc
    obtain ⟨e', he', hsame'⟩ := hsound.head_of_stores hd
    have hnames : c.name = d.name := by rw [hm, hn, VersionName.toText, VersionName.toText, hmajor, hminor]
    exact hsound.eq_of_name he he' (hsame.name.symm.trans (hnames.trans hsame'.name))
  case root =>
    intro v c hc hbase
    exact h.root (horigin hc) hbase
  case branch =>
    intro v b c hc hbase
    obtain ⟨p, m, n, t, u, hp, hm, hn, hstep, ht, hu, hlt⟩ := h.branch (horigin hc) hbase
    obtain ⟨e, he, rfl⟩ := Option.map_eq_some_iff.1 hp
    exact ⟨e, m, n, t, u, he, hm, hn, hstep, ht, hu, hlt⟩

end Shelf

/-! ### Histories -/

namespace Store

variable {past : List Fresh} {s : Store} {history : List (Event Request)}

/-- The origins of every item's versions are in order after a history of requests, if its ids are new and the
clock goes on. -/
theorem descends_afterServing (naming : Calculator) (horderly : s.Orderly anyStatus past)
    (h : ∀ tenant item, (s.shelf tenant item).Descends naming past) (hfresh : FreshIds history)
    (hpast : ∀ e ∈ history, ∀ g ∈ past, g.Apart e.fresh) (hclock : ClockGrows history)
    (hbefore : ∀ e ∈ history, ∀ g ∈ past, g.clock.Before e.fresh.clock) (tenant item : String) :
    ∃ past', ((s.afterServing naming history).shelf tenant item).Descends naming past' ∧
      ((s.afterServing naming history).shelf tenant item).Sound anyStatus := by
  induction history generalizing s past with
  | nil => exact ⟨past, h tenant item, horderly.sound tenant item⟩
  | cons e history ih =>
      obtain ⟨htail, hpast'⟩ := hfresh.tail hpast
      obtain ⟨hclock', hbefore'⟩ := pairwise_tail (R := fun f g => f.clock.Before g.clock) hclock hbefore
      have hlater : ∀ g ∈ past, g.clock.createVersion < e.fresh.clock.createVersion :=
        fun g hg => (hbefore e List.mem_cons_self g hg).createVersion
      have hgrown := horderly.grown_serve (hpast e List.mem_cons_self) naming
      refine ih (horderly.grown hgrown (horderly.known.serve naming e)) (fun t i => ?_) htail hpast'
        hclock' hbefore'
      exact (((h t i).mono (List.subset_append_left _ _)).grown hlater (horderly.sound t i) (hgrown t i)).1

/-- **Versions form a derivation forest.** After every history of requests of any users, with new ids and a
clock that goes on, all that is stored of a version of an item, in its revisions and in anybody's copy, tells
the same id, name, base and creation time. Names are canonical, and different versions have different ones. A
version without a base is named one step after the seed; a base is a shared version of the item that was made
strictly earlier, and its name is one step before. So following the bases never comes back, and it ends at a
version without a base. -/
theorem derivation_forest (naming : Calculator) (hfresh : FreshIds history)
    (hclock : ClockGrows history) (tenant item : String) :
    let s := (Store.empty.afterServing naming history).shelf tenant item
    s.Forest naming ∧ (∀ v, ¬ TransGen s.DerivedFrom v v) ∧
      ∀ v c, s.Stores v c →
        ∃ r d, ReflTransGen s.DerivedFrom v r ∧ s.Stores r d ∧ d.base = none := by
  intro s
  have horderly : Store.empty.Orderly anyStatus [] := .empty
  obtain ⟨past, hdescends, hsound⟩ := descends_afterServing naming horderly
    (fun _ _ => .empty) hfresh (by simp) hclock (by simp) tenant item
  have hforest := hdescends.forest hsound
  exact ⟨hforest, hforest.acyclic, fun v c hc => hforest.exists_root hc⟩

/-- An instant that is some seconds after noon. -/
def afterNoon (seconds : Nat) (h : seconds < 43200 := by decide) : Instant :=
  ⟨noon.date, 43200 + seconds, 0, by omega, by omega, by omega⟩

/-- A version is made and certified, and another user makes one from it. -/
def derivation : List (Event Request) :=
  [⟨⟨"i1", "v1", "r1", afterNoon 1⟩, ⟨"alice", "acme"⟩, .createItem Item.blank⟩,
    ⟨⟨"i2", "v2", "r2", afterNoon 2⟩, ⟨"alice", "acme"⟩,
      .createVersion "i1" none Version.blank .major⟩,
    ⟨⟨"i3", "v3", "r3", afterNoon 3⟩, ⟨"alice", "acme"⟩,
      .setVersionStatus "i1" "v2" .certified "done"⟩,
    ⟨⟨"i4", "v4", "r4", afterNoon 4⟩, ⟨"bob", "acme"⟩,
      .createVersion "i1" (some "v2") Version.blank .minor⟩]

/-- The later version comes from the earlier one, and following its bases ends. -/
theorem derivation_ends :
    let s := (Store.empty.afterServing .standard derivation).shelf "acme" "i1"
    FreshIds derivation ∧ ClockGrows derivation ∧ s.DerivedFrom "v4" "v2" ∧
      ¬ s.DerivedFrom "v2" "v4" ∧
      ∃ r d, ReflTransGen s.DerivedFrom "v4" r ∧ s.Stores r d ∧ d.base = none := by
  intro s
  have hfresh : FreshIds derivation := by decide
  have hclock : ClockGrows derivation := by decide
  obtain ⟨-, hacyclic, hends⟩ := derivation_forest .standard hfresh hclock "acme" "i1"
  obtain ⟨c, hc, hbase⟩ : ∃ c, s.copy? "bob" "v4" = some c ∧ c.content.base = some "v2" := by
    have hbase : (s.copy? "bob" "v4").map (·.content.base) = some (some "v2") := by decide +kernel
    exact Option.map_eq_some_iff.1 hbase
  have hderived : s.DerivedFrom "v4" "v2" := ⟨c.content, .copy hc, hbase⟩
  refine ⟨hfresh, hclock, hderived, fun hback => ?_, hends "v4" c.content (.copy hc)⟩
  exact hacyclic "v4" (.tail (.single hderived) hback)

end Store

end VersionCatalog
