import Mathlib.Data.List.Forall2
import VersionCatalog.Proofs.Descent
import VersionCatalog.Proofs.Lifecycle
import VersionCatalog.Proofs.Names

/-!
# Listings

A listing has every shared version once, as it was published last, and notes on each whether a major step
may be taken from it (`Shelf.Listing`). To note that, the next major name is calculated for each certified
version; behind the last major number there is none, and then the whole listing fails, also for the versions
beside it. Nothing else makes a listing fail, because every shared name is the text of a name
(`Shelf.Named`).

## Main results

* `Calculator.annotate_or`: what is noted on a version, and when that fails.
* `Shelf.listing_or`: what is listed of an item's versions, and when that fails.
* `Store.listing_fails_only_at_last`: what is listed after every history.
-/

namespace VersionCatalog

/-! ### Lists of results -/

section

variable {ε α β : Type} {g : α → Except ε β} {xs : List α} {ys : List β} {error : ε}

/-- A list of results is there if each of them is. -/
theorem mapM_eq_ok : xs.mapM g = .ok ys ↔ List.Forall₂ (fun x y => g x = .ok y) xs ys := by
  induction xs generalizing ys with
  | nil => cases ys <;> simp [pure, Except.pure]
  | cons x xs ih =>
      rw [List.mapM_cons]
      cases hx : g x with
      | error e => cases ys <;> simp [bind, Except.bind, hx]
      | ok y =>
          cases hxs : xs.mapM g with
          | error e => cases ys <;> simp [bind, Except.bind, ← ih, hx, hxs]
          | ok rest => cases ys <;> simp [bind, Except.bind, pure, Except.pure, ← ih, hx, hxs]

/-- If there is none, one of the results is the error. -/
theorem error_of_mapM (h : xs.mapM g = .error error) : ∃ x ∈ xs, g x = .error error := by
  induction xs with
  | nil => cases h
  | cons x xs ih =>
      rw [List.mapM_cons] at h
      rcases bind_eq_error.1 h with hx | ⟨y, -, h⟩
      · exact ⟨x, List.mem_cons_self, hx⟩
      · rcases bind_eq_error.1 h with hxs | ⟨rest, -, h⟩
        · obtain ⟨z, hz, herror⟩ := ih hxs
          exact ⟨z, List.mem_cons_of_mem _ hz, herror⟩
        · cases h

/-- Each of the list has its result, and each result comes from one of the list. -/
theorem exists_of_mapM (h : xs.mapM g = .ok ys) :
    (∀ x ∈ xs, ∃ y ∈ ys, g x = .ok y) ∧ ∀ y ∈ ys, ∃ x ∈ xs, g x = .ok y := by
  have hall := mapM_eq_ok.1 h
  clear h
  induction hall with
  | nil => simp
  | cons hxy _ ih =>
      simp only [List.forall_mem_cons, List.exists_mem_cons_iff]
      exact ⟨⟨.inl hxy, fun x hx => .inr (ih.1 x hx)⟩, .inl hxy, fun y hy => .inr (ih.2 y hy)⟩

/-- What the results leave as it is stays in its place. -/
theorem map_eq_of_mapM {γ : Type} {k : α → γ} {l : β → γ} (h : xs.mapM g = .ok ys)
    (hsame : ∀ x ∈ xs, ∀ y, g x = .ok y → l y = k x) : ys.map l = xs.map k := by
  have hall := mapM_eq_ok.1 h
  clear h
  induction hall with
  | nil => rfl
  | cons hxy _ ih =>
      obtain ⟨hx, hxs⟩ := List.forall_mem_cons.1 hsame
      rw [List.map_cons, List.map_cons, hx _ hxy, ih hxs]

end

/-! ### What is noted on a version -/

/-- The content of a certified version after which there is no major number left. -/
def Content.IsLast (c : Content) : Prop :=
  c.status = .certified ∧ ∃ n : VersionName, c.name = n.toText ∧ n.next? .major = none

/-- A listed version with the steps that it offers. -/
def Content.offering (c : Content) (steps : List Step) : Version :=
  (⟨c, none⟩ : Version).setProperty Calculator.offeredSteps (.list (steps.map fun step => .text step.name))

namespace Calculator

variable {naming : Calculator} {n m : VersionName} {step : Step} {c : Content}

theorem calculate_of_next? (h : n.next? step = some m) :
    naming.calculate (some n.toText) step = .ok m.toText :=
  (calculate_eq_ok (naming.start?_toText n)).2 ⟨m, h, rfl⟩

theorem calculate_of_last (h : n.next? step = none) :
    naming.calculate (some n.toText) step
      = .error (.validation s!"Version {n.toText} cannot be incremented") := by
  rw [calculate_of_start (naming.start?_toText n), h]

/-- The major step is open from a content, among versions of the given names. -/
def OpensMajor (names : List String) (c : Content) : Prop :=
  c.status = .certified ∧
    ∃ n m : VersionName, c.name = n.toText ∧ n.next? .major = some m ∧ m.toText ∉ names

theorem opensMajor_iff {names : List String} (hname : c.name = n.toText) :
    OpensMajor names c ↔ c.status = .certified ∧ ∃ m, n.next? .major = some m ∧ m.toText ∉ names := by
  refine and_congr_right fun _ => ⟨?_, fun ⟨m, hm, hnot⟩ => ⟨n, m, hname, hm, hnot⟩⟩
  rintro ⟨k, m, hk, hm, hnot⟩
  rw [VersionName.toText_injective (hk.symm.trans hname)] at hm
  exact ⟨m, hm, hnot⟩

theorem isLast_iff (hname : c.name = n.toText) :
    c.IsLast ↔ c.status = .certified ∧ n.next? .major = none := by
  refine and_congr_right fun _ => ⟨?_, fun hlast => ⟨n, hname, hlast⟩⟩
  rintro ⟨k, hk, hlast⟩
  rwa [VersionName.toText_injective (hk.symm.trans hname)] at hlast

/-- **What is noted on a version**: that it offers the major step if that is open, and nothing if not. Only
where no major number is left this fails. -/
theorem annotate_or (naming : Calculator) (names : List String) (hname : c.name = n.toText) :
    (c.IsLast ∧ naming.annotate names ⟨c, none⟩
        = .error (.validation s!"Version {n.toText} cannot be incremented")) ∨
      ¬ c.IsLast ∧ ∃ steps, naming.annotate names ⟨c, none⟩ = .ok (c.offering steps) ∧
        (OpensMajor names c ∧ steps = [.major] ∨ ¬ OpensMajor names c ∧ steps = []) := by
  rw [isLast_iff hname, opensMajor_iff hname]
  cases hstatus : c.status with
  | draft =>
      refine .inr ⟨by simp, [], ?_, .inr ⟨by simp, rfl⟩⟩
      simp only [annotate, hstatus]
      rfl
  | certified =>
      have hannotate : naming.annotate names ⟨c, none⟩ =
          (naming.calculate (some n.toText) .major >>= fun next =>
            .ok (c.offering (if names.contains next then [] else [.major]))) := by
        simp only [annotate, hstatus, hname]
        congr 1
        funext next
        cases names.contains next <;> rfl
      cases hnext : n.next? .major with
      | none =>
          refine .inl ⟨⟨rfl, rfl⟩, ?_⟩
          rw [hannotate, calculate_of_last hnext]
          rfl
      | some m =>
          refine .inr ⟨by simp, if names.contains m.toText then [] else [.major], ?_, ?_⟩
          · rw [hannotate, calculate_of_next? hnext]
            rfl
          · by_cases hm : m.toText ∈ names <;> simp [hm]

/-- Notes on a version leave its id as it is. -/
theorem annotate_id {names : List String} {v w : Version} (h : naming.annotate names v = .ok w) :
    w.id = v.id := by
  rw [annotate] at h
  cases hstatus : v.status with
  | draft =>
      rw [hstatus] at h
      exact congrArg (·.id) (Except.ok.inj h).symm
  | certified =>
      rw [hstatus] at h
      cases hname : naming.calculate (some v.name) .major with
      | error error => simp [hname, bind, Except.bind] at h
      | ok next =>
          rw [hname] at h
          exact congrArg (·.id) (Except.ok.inj h).symm

/-- Nothing can be noted on a certified version without a next major name, and only on such a one. -/
theorem annotate_error {names : List String} {v : Version} {error : EngineError}
    (h : naming.annotate names v = .error error) :
    v.status = .certified ∧ naming.calculate (some v.name) .major = .error error := by
  rw [annotate] at h
  cases hstatus : v.status with
  | draft =>
      rw [hstatus] at h
      cases h
  | certified =>
      rw [hstatus] at h
      rcases bind_eq_error.1 h with hname | ⟨next, -, h⟩
      · exact ⟨rfl, hname⟩
      · cases h

end Calculator

/-! ### What is listed of an item -/

namespace Shelf

variable {naming : Calculator} {f : Fresh} {user : String} {s s' : Shelf}

/-- Every shared name is the text of a name. -/
def Named (s : Shelf) : Prop :=
  ∀ ⦃version : String⦄ ⦃e : Entry⦄, s.head? version = some e →
    ∃ n : VersionName, e.content.name = n.toText

theorem Named.empty : Shelf.empty.Named :=
  fun _ _ he => absurd he (by simp)

theorem named_iff : s.Named ↔
    ∀ version o, s.origin? version = some o → ∃ n : VersionName, o.name = n.toText := by
  constructor
  · intro h version o ho
    obtain ⟨e, he, rfl⟩ := Option.map_eq_some_iff.1 ho
    exact h he
  · intro h version e he
    exact h version (.of e.content) (by rw [origin?, he]; rfl)

/-- A version is made with a name that was calculated, so its name is one. -/
theorem Named.growth (hsound : s.Sound anyStatus) (hgrowth : Growth naming f user s s')
    (h : s.Named) : s'.Named := by
  rw [named_iff] at h ⊢
  rcases hgrowth.origin?_eq_or hsound with hsame | hnone | ⟨content, -, hoffers, -, horigin⟩
  · intro v o ho
    exact h v o (hsame v ▸ ho)
  · intro v o ho
    exact absurd ((hnone v).symm.trans ho) (by simp)
  · intro v o ho
    rw [horigin] at ho
    split at ho
    · obtain rfl := Option.some.inj ho
      cases hoffers with
      | root _ hname =>
          obtain ⟨n, -, hn⟩ := Calculator.calculate_none.1 hname
          exact ⟨n, hn⟩
      | branch _ _ hname =>
          obtain ⟨-, n, -, -, hn⟩ := Calculator.calculate_some.1 hname
          exact ⟨n, hn⟩
    · exact h v o ho

/-- The names of the versions that are listed. -/
def names (s : Shelf) : List String :=
  s.list.map (·.name)

theorem mem_names {name : String} :
    name ∈ s.names ↔ ∃ version e, s.head? version = some e ∧ e.content.name = name := by
  simp only [names, List.mem_map, mem_list]
  constructor
  · rintro ⟨x, ⟨version, e, he, rfl⟩, hname⟩
    exact ⟨version, e, he, hname⟩
  · rintro ⟨version, e, he, hname⟩
    exact ⟨⟨e.content, none⟩, ⟨version, e, he, rfl⟩, hname⟩

/-- What a listing of an item's versions is: each shared version once, as it was published last, and with the
major step if that is open, or else with no step. -/
structure Listing (s : Shelf) (vs : List Version) : Prop where
  nodup : (vs.map (·.id)).Nodup
  mem_iff : ∀ version, version ∈ vs.map (·.id) ↔ ∃ e, s.head? version = some e
  entry : ∀ x ∈ vs, ∃ e steps, s.head? x.id = some e ∧ x = e.content.offering steps ∧
    (Calculator.OpensMajor s.names e.content ∧ steps = [.major] ∨
      ¬ Calculator.OpensMajor s.names e.content ∧ steps = [])

/-- What is noted on a listed version: its steps, unless it is certified and no major number is left. -/
theorem annotate_of_mem_list (naming : Calculator) (h : s.Named)
    (hid : ∀ {version e}, s.head? version = some e → e.content.id = version) {x : Version}
    (hx : x ∈ s.list) : ∃ e, s.head? x.id = some e ∧
      ((e.content.IsLast ∧ ∃ n : VersionName, e.content.name = n.toText ∧
          naming.annotate s.names x
            = .error (.validation s!"Version {n.toText} cannot be incremented")) ∨
        ¬ e.content.IsLast ∧ ∃ steps, naming.annotate s.names x = .ok (e.content.offering steps) ∧
          (Calculator.OpensMajor s.names e.content ∧ steps = [.major] ∨
            ¬ Calculator.OpensMajor s.names e.content ∧ steps = [])) := by
  obtain ⟨version, e, he, rfl⟩ := mem_list.1 hx
  obtain ⟨n, hn⟩ := h he
  refine ⟨e, (hid he).symm ▸ he, ?_⟩
  rcases Calculator.annotate_or naming s.names hn with ⟨hlast, hnoted⟩ | hnoted
  · exact .inl ⟨hlast, n, hn, hnoted⟩
  · exact .inr hnoted

/-- A listing in which every version could be noted has each shared version once. -/
theorem listing_of_mapM {naming : Calculator} (h : s.Named)
    (hid : ∀ {version e}, s.head? version = some e → e.content.id = version) {vs : List Version}
    (hvs : s.list.mapM (naming.annotate s.names) = .ok vs) :
    (∀ version e, s.head? version = some e → ¬ e.content.IsLast) ∧ s.Listing vs := by
  have hnoted : ∀ {x y}, x ∈ s.list → naming.annotate s.names x = .ok y →
      ∃ e steps, s.head? x.id = some e ∧ ¬ e.content.IsLast ∧ y = e.content.offering steps ∧
        (Calculator.OpensMajor s.names e.content ∧ steps = [.major] ∨
          ¬ Calculator.OpensMajor s.names e.content ∧ steps = []) := by
    intro x y hx hy
    obtain ⟨e, he, ⟨-, n, -, herror⟩ | ⟨hnot, steps, hok, hsteps⟩⟩ :=
      annotate_of_mem_list naming h hid hx
    · cases herror.symm.trans hy
    · exact ⟨e, steps, he, hnot, Except.ok.inj (hy.symm.trans hok), hsteps⟩
  have hids : vs.map (·.id) = s.list.map (·.id) := map_eq_of_mapM hvs fun x hx y hy => by
    obtain ⟨e, steps, he, -, rfl, -⟩ := hnoted hx hy
    exact hid he
  have listed : ∀ {version e}, s.head? version = some e → (⟨e.content, none⟩ : Version) ∈ s.list :=
    fun he => mem_list.2 ⟨_, _, he, rfl⟩
  refine ⟨fun version e he => ?_, ?_, fun version => ?_, fun y hy => ?_⟩
  · obtain ⟨y, -, hy⟩ := (exists_of_mapM hvs).1 _ (listed he)
    obtain ⟨d, steps, hd, hnot, -⟩ := hnoted (listed he) hy
    rw [hid he, he] at hd
    exact Option.some.inj hd ▸ hnot
  · have hnodup : (s.heads.map (·.content.id)).Nodup :=
      nodup_map_heads fun hd he hsame => (hid hd).symm.trans (hsame.trans (hid he))
    exact hids ▸ ((s.list_perm (·.id)).nodup_iff).2 hnodup
  · rw [hids, List.mem_map]
    constructor
    · rintro ⟨x, hx, rfl⟩
      obtain ⟨e, he, -⟩ := annotate_of_mem_list naming h hid hx
      exact ⟨e, he⟩
    · rintro ⟨e, he⟩
      exact ⟨⟨e.content, none⟩, listed he, hid he⟩
  · obtain ⟨x, hx, hxy⟩ := (exists_of_mapM hvs).2 y hy
    obtain ⟨e, steps, he, -, rfl, hsteps⟩ := hnoted hx hxy
    exact ⟨e, steps, (hid he).symm ▸ he, rfl, hsteps⟩

/-- **What is listed of an item's versions**: all of them, unless for a certified one no major number is
left. -/
theorem listing_or (naming : Calculator) (h : s.Named)
    (hid : ∀ {version e}, s.head? version = some e → e.content.id = version) :
    ((∀ version e, s.head? version = some e → ¬ e.content.IsLast) ∧
        ∃ vs, s.list.mapM (naming.annotate s.names) = .ok vs ∧ s.Listing vs) ∨
      ∃ version e n, s.head? version = some e ∧ e.content.IsLast ∧
        e.content.name = VersionName.toText n ∧ s.list.mapM (naming.annotate s.names)
          = .error (.validation s!"Version {n.toText} cannot be incremented") := by
  cases hresult : s.list.mapM (naming.annotate s.names) with
  | ok vs =>
      obtain ⟨hnone, hlisting⟩ := listing_of_mapM h hid hresult
      exact .inl ⟨hnone, vs, rfl, hlisting⟩
  | error error =>
      obtain ⟨x, hx, herror⟩ := error_of_mapM hresult
      obtain ⟨e, he, ⟨hlast, n, hn, hnoted⟩ | ⟨-, steps, hok, -⟩⟩ :=
        annotate_of_mem_list naming h hid hx
      · obtain rfl := Except.error.inj (herror.symm.trans hnoted)
        exact .inr ⟨x.id, e, n, he, hlast, hn, rfl⟩
      · cases hok.symm.trans herror

end Shelf

/-! ### Listings of the engine -/

namespace Store

variable {history : List (Event Request)}

/-- What the engine lists. -/
theorem reply_listVersions (naming : Calculator) (s : Store) (f : Fresh) (session : Session)
    (item : String) :
    let shelf := s.shelf session.tenant item
    s.reply naming ⟨f, session, .listVersions item⟩
      = (shelf.list.mapM (naming.annotate shelf.names)).map .versions := by
  intro shelf
  have hread : Call.ofStore ((Memory.backend f).listVersions session item) s = .ok shelf.list s := rfl
  rw [reply, served, Request.run, answerOf_map, Versions.list, bind_ok hread, Call.answerOf_ofExcept]
  rfl

/-- Listing versions changes nothing. -/
theorem serve_listVersions (naming : Calculator) (s : Store) (f : Fresh) (session : Session)
    (item : String) : s.serve naming ⟨f, session, .listVersions item⟩ = s := by
  have hread : Call.ofStore ((Memory.backend f).listVersions session item) s
      = .ok (s.listVersions session item) s := rfl
  rw [serve, served, Request.run, stateOf_map, Versions.list, bind_ok hread, Call.stateOf_ofExcept]

/-- After every history of requests the versions of every item are sound, and their names are names. -/
theorem named_afterServing (naming : Calculator) (hfresh : FreshIds history) :
    (empty.afterServing naming history).Orderly anyStatus (history.map (·.fresh)) ∧
      ∀ tenant item, ((empty.afterServing naming history).shelf tenant item).Named := by
  have horderly : Store.empty.Orderly anyStatus [] := .empty
  exact horderly.keeps_afterServing naming Shelf.Named.growth (fun _ _ => .empty) hfresh (by simp)

/-- **A listing fails only at the last major number.** After every history of requests with new ids, the
engine lists the versions of every item to everybody, each shared version once with the steps that it offers,
as long as for every certified version there is a major number left. If there is one for which none is left,
the engine lists nothing at all, but refuses to increment such a version's name. -/
theorem listing_fails_only_at_last (naming : Calculator) (hfresh : FreshIds history) (f : Fresh)
    (session : Session) (item : String) :
    let s := empty.afterServing naming history
    let shelf := s.shelf session.tenant item
    let reply := s.reply naming ⟨f, session, .listVersions item⟩
    ((∀ version e, shelf.head? version = some e → ¬ e.content.IsLast) →
        ∃ vs, reply = .ok (.versions vs) ∧ shelf.Listing vs) ∧
      ∀ version e, shelf.head? version = some e → e.content.IsLast →
        ∃ v d n, shelf.head? v = some d ∧ d.content.IsLast ∧ d.content.name = VersionName.toText n ∧
          reply = .error (.validation s!"Version {n.toText} cannot be incremented") := by
  intro s shelf reply
  obtain ⟨horderly, hnamed⟩ := named_afterServing naming hfresh
  have hreply : reply = (shelf.list.mapM (naming.annotate shelf.names)).map .versions :=
    reply_listVersions naming s f session item
  rcases Shelf.listing_or naming (hnamed session.tenant item)
      (horderly.sound session.tenant item).id_of_head with
    ⟨hnone, vs, hvs, hlisting⟩ | ⟨v, d, n, hd, hlast, hn, herror⟩
  · refine ⟨fun _ => ⟨vs, ?_, hlisting⟩, fun version e he hlast => absurd hlast (hnone version e he)⟩
    rw [hreply, hvs]
    rfl
  · refine ⟨fun hnot => absurd hlast (hnot v d hd), fun _ _ _ _ => ⟨v, d, n, hd, hlast, hn, ?_⟩⟩
    rw [hreply, herror]
    rfl

/-- The calculator that starts from the last major number but one. -/
def lateCalculator : Calculator :=
  (Calculator.ofSeed "4294967294.0").toOption.getD .standard

/-- The version that is made is listed as long as it is a draft. Once it is certified, nothing is. -/
theorem listing_ends_with_certification :
    let draft := empty.afterServing lateCalculator (certification.take 2)
    let certified := empty.afterServing lateCalculator certification
    let listing : Event Request := ⟨⟨"i4", "v4", "r4", noon⟩, ⟨"bob", "acme"⟩, .listVersions "i1"⟩
    (∃ vs, draft.reply lateCalculator listing = .ok (.versions vs) ∧
        (draft.shelf "acme" "i1").Listing vs ∧ "v2" ∈ vs.map (·.id)) ∧
      certified.reply lateCalculator listing
        = .error (.validation "Version 4294967295.0 cannot be incremented") := by
  intro draft certified listing
  have hearly : FreshIds (certification.take 2) := by decide
  have hfresh : FreshIds certification := by decide
  have listed := (listing_fails_only_at_last lateCalculator hearly listing.fresh listing.session "i1").1
  have refused := (listing_fails_only_at_last lateCalculator hfresh listing.fresh listing.session "i1").2
  constructor
  · have hdraft : ∀ e ∈ (draft.shelf "acme" "i1").heads, e.content.status = .draft := by decide +kernel
    obtain ⟨vs, hreply, hlisting⟩ := listed fun version e he hlast =>
      absurd ((hdraft e (Shelf.mem_heads.2 ⟨version, he⟩)).symm.trans hlast.1) (by simp)
    have hhead : ((draft.shelf "acme" "i1").head? "v2").isSome = true := by decide +kernel
    exact ⟨vs, hreply, hlisting, (hlisting.mem_iff "v2").2 (Option.isSome_iff_exists.1 hhead)⟩
  · have hname : ∀ e ∈ (certified.shelf "acme" "i1").heads,
        e.content.status = .certified ∧ e.content.name = "4294967295.0" := by decide +kernel
    have hhead : ((certified.shelf "acme" "i1").head? "v2").isSome = true := by decide +kernel
    obtain ⟨e, he⟩ := Option.isSome_iff_exists.1 hhead
    obtain ⟨hstatus, hename⟩ := hname e (Shelf.mem_heads.2 ⟨"v2", he⟩)
    have hlast : e.content.IsLast :=
      ⟨hstatus, ⟨4294967295, 0, by decide, by decide⟩, hename.trans (by decide +kernel), by decide⟩
    obtain ⟨v, d, n, hd, -, hn, hreply⟩ := refused "v2" e he hlast
    rw [← hn, (hname d (Shelf.mem_heads.2 ⟨v, hd⟩)).2] at hreply
    exact hreply

end Store

end VersionCatalog
