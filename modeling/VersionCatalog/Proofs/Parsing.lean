import VersionCatalog.Proofs.Rounded

/-!
# Documents that are read

Whatever a text says, a document that is read from it has numbers in range and is at most `maxDepth` deep
(`Json.Bounded`). A value that is kept for its own sake is kept in canonical form, which is no deeper and
is a value that a document can keep.

## Main results

* `Json.bounded_of_parse?`: a document that is read is bounded.
* `Json.isValue_canonical`: the canonical form of a readable document is a value that a document can keep.
-/

namespace VersionCatalog

/-- What a reader makes of a list is made of its elements. -/
theorem mem_of_mapM {α β : Type} {f : α → Option β} {xs : List α} {ys : List β}
    (h : xs.mapM f = some ys) {y : β} (hy : y ∈ ys) : ∃ x ∈ xs, f x = some y := by
  induction xs generalizing ys with
  | nil =>
      cases h
      cases hy
  | cons x xs ih =>
      rw [List.mapM_cons] at h
      obtain ⟨first, hfirst, h⟩ := Option.bind_eq_some_iff.1 h
      obtain ⟨rest, hrest, h⟩ := Option.bind_eq_some_iff.1 h
      cases h
      rcases List.mem_cons.1 hy with rfl | hy
      · exact ⟨x, List.mem_cons_self, hfirst⟩
      · obtain ⟨x', hx', heq⟩ := ih hrest hy
        exact ⟨x', List.mem_cons_of_mem x hx', heq⟩

namespace Json

variable {n : Nat}

/-- A document with numbers in range, at most `n` lists and records deep. -/
structure Bounded (n : Nat) (j : Json) : Prop where
  fits : j.fits = true
  depth_le : j.depth ≤ n

theorem bounded_list_iff {xs : List Json} :
    (list xs).Bounded (n + 1) ↔ ∀ x ∈ xs, x.Bounded n := by
  constructor
  · rintro ⟨hfits, hdepth⟩ x hx
    rw [fits] at hfits
    exact ⟨fitsItems_iff.1 hfits x hx, depth_list_le_iff.1 hdepth x hx⟩
  · intro h
    refine ⟨?_, depth_list_le_iff.2 fun x hx => (h x hx).depth_le⟩
    rw [fits]
    exact fitsItems_iff.2 fun x hx => (h x hx).fits

theorem bounded_record_iff {fields : List (String × Json)} :
    (record fields).Bounded (n + 1) ↔ ∀ e ∈ fields, e.2.Bounded n := by
  constructor
  · rintro ⟨hfits, hdepth⟩ e he
    rw [fits] at hfits
    exact ⟨fitsFields_iff.1 hfits e he, depth_record_le_iff.1 hdepth e he⟩
  · intro h
    refine ⟨?_, depth_record_le_iff.2 fun e he => (h e he).depth_le⟩
    rw [fits]
    exact fitsFields_iff.2 fun e he => (h e he).fits

theorem bounded_unreadable : unreadable.Bounded n :=
  ⟨rfl, Nat.zero_le n⟩

/-! ### Tokens -/

/-- A number that is read is in range. -/
theorem bounded_ofNumeral (numeral : Text.Numeral) : (ofNumeral numeral).Bounded 0 := by
  rw [ofNumeral]
  split
  · rename_i h
    rw [Bool.and_eq_true, Bool.and_eq_true] at h
    exact ⟨h.1.2, Nat.le_refl 0⟩
  · split
    · exact ⟨rfl, Nat.le_refl 0⟩
    · exact bounded_unreadable

theorem bounded_of_atom? {cs : List Char} {j : Json} (h : atom? cs = some j) : j.Bounded 0 := by
  unfold atom? at h
  split at h
  · cases h
    exact ⟨rfl, Nat.le_refl 0⟩
  · split at h
    · cases h
      exact ⟨rfl, Nat.le_refl 0⟩
    · split at h
      · cases h
        exact ⟨rfl, Nat.le_refl 0⟩
      · obtain ⟨numeral, -, rfl⟩ := Option.map_eq_some_iff.1 h
        exact bounded_ofNumeral numeral

/-- The value of a token is a number in range or a word. -/
def Token.Bounded (t : Token) : Prop :=
  ∀ j, t = .atom j → j.Bounded 0

/-- No single character is a value. -/
theorem Scan.bounded_start {c : Char} {t : Option Token} {m : Scan} (h : start c = some (t, m)) :
    ∀ u ∈ t, u.Bounded := by
  unfold start at h
  rintro u rfl j rfl
  split at h
  · simp at h
  · split at h
    · simp at h
    · split at h
      · simp at h
      · obtain ⟨v, hv, heq⟩ := Option.map_eq_some_iff.1 h
        cases heq
        unfold punctuation? at hv
        split at hv <;> cases hv

/-- A step of a scan completes bounded tokens only. -/
theorem Scan.bounded_step {m m' : Scan} {c : Char} {ts : List Token}
    (h : m.step c = some (ts, m')) : ∀ t ∈ ts, t.Bounded := by
  have hinText : ∀ {done ts m'}, inText done c = some (ts, m') → ∀ t ∈ ts, t.Bounded := by
    intro done ts m' h t ht
    unfold inText at h
    split at h
    · cases h
      obtain rfl := List.mem_singleton.1 ht
      rintro j ⟨⟩
    · split at h
      · cases h
        cases ht
      · split at h
        · cases h
        · cases h
          cases ht
  have hinEscape : ∀ {done ts m'}, inEscape done c = some (ts, m') → ts = [] := by
    intro done ts m' h
    unfold inEscape at h
    split at h
    · cases h
      rfl
    · obtain ⟨d, -, heq⟩ := Option.map_eq_some_iff.1 h
      cases heq
      rfl
  cases m with
  | gap =>
      obtain ⟨⟨t, m⟩, hstart, heq⟩ := Option.map_eq_some_iff.1 h
      cases heq
      intro u hu
      exact bounded_start hstart u (Option.mem_toList.1 hu)
  | word letters =>
      rw [step] at h
      split at h
      · cases h
        simp
      · obtain ⟨j, hj, h⟩ := Option.bind_eq_some_iff.1 h
        obtain ⟨⟨t, m⟩, hstart, h⟩ := Option.bind_eq_some_iff.1 h
        cases h
        intro u hu
        rcases List.mem_append.1 hu with hu | hu
        · exact bounded_start hstart u (Option.mem_toList.1 hu)
        · obtain rfl := List.mem_singleton.1 hu
          rintro j' ⟨⟩
          exact bounded_of_atom? hj
  | text done => exact hinText h
  | escape done =>
      rw [hinEscape h]
      simp
  | code done high left value =>
      obtain ⟨digit, -, h⟩ := Option.bind_eq_some_iff.1 h
      split at h <;> cases h <;> simp
  | pair done high =>
      rw [step] at h
      split at h
      · cases h
        simp
      · exact hinText h
  | pairEscape done high =>
      rw [step] at h
      split at h
      · cases h
        simp
      · rw [hinEscape h]
        simp

/-- The tokens of a text are bounded. -/
theorem bounded_of_scanFrom {found ts : List Token} {m : Scan} {cs : List Char}
    (hfound : ∀ t ∈ found, t.Bounded) (h : scanFrom found m cs = some ts) :
    ∀ t ∈ ts, t.Bounded := by
  induction cs generalizing found m with
  | nil =>
      obtain ⟨last, hlast, rfl⟩ := Option.map_eq_some_iff.1 h
      intro t ht
      rcases List.mem_append.1 (List.mem_reverse.1 ht) with ht | ht
      · cases m with
        | gap =>
            cases hlast
            cases ht
        | word letters =>
            obtain ⟨j, hj, rfl⟩ := Option.map_eq_some_iff.1 hlast
            obtain rfl := List.mem_singleton.1 ht
            rintro j' ⟨⟩
            exact bounded_of_atom? hj
        | _ => cases hlast
      · exact hfound t ht
  | cons c cs ih =>
      rw [scanFrom] at h
      split at h
      · cases h
      · rename_i new m' hstep
        refine ih ?_ h
        intro t ht
        rcases List.mem_append.1 ht with ht | ht
        · exact Scan.bounded_step hstep t ht
        · exact hfound t ht

/-! ### Open lists and records -/

/-- What has been read of an open list or record is bounded. -/
def Frame.Bounded (n : Nat) : Frame → Prop
  | .list items => ∀ x ∈ items, x.Bounded n
  | .record fields _ => ∀ e ∈ fields, e.2.Bounded n

/-- What has been read of all that is open is bounded; the more is open around it, the less deep it is. -/
def StackBounded : List Frame → Prop
  | [] => True
  | frame :: stack => frame.Bounded (maxDepth - (stack.length + 1)) ∧ StackBounded stack

/-- What has been read inside all that is open is bounded. -/
def Expect.Bounded (stack : List Frame) : Expect → Prop
  | .name fields | .colon fields _ => ∀ e ∈ fields, e.2.Bounded (maxDepth - (stack.length + 1))
  | .after v => v.Bounded (maxDepth - stack.length)
  | _ => True

section

variable {stack stack' : List Frame} {expect expect' : Expect}

/-- A closed list is not too deep for where it stands: else it is unreadable, and not deep at all. -/
theorem bounded_closeList {items : List Json}
    (h : ∀ x ∈ items, x.Bounded (maxDepth - (stack.length + 1))) :
    (closeList stack items).Bounded (maxDepth - stack.length) := by
  rw [closeList]
  split
  · rename_i hlt
    have hroom : maxDepth - stack.length = maxDepth - (stack.length + 1) + 1 := by omega
    rw [hroom]
    exact bounded_list_iff.2 h
  · exact bounded_unreadable

theorem bounded_closeRecord {fields : List (Option String × Json)}
    (h : ∀ e ∈ fields, e.2.Bounded (maxDepth - (stack.length + 1))) :
    (closeRecord stack fields).Bounded (maxDepth - stack.length) := by
  unfold closeRecord
  split
  · rename_i named hnamed
    split
    · have hroom : maxDepth - stack.length = maxDepth - (stack.length + 1) + 1 := by omega
      rw [hroom, bounded_record_iff]
      intro e he
      obtain ⟨⟨name, value⟩, hmem, hname⟩ := mem_of_mapM hnamed he
      obtain ⟨name, rfl, rfl⟩ := Option.map_eq_some_iff.1 hname
      exact h _ hmem
    · exact bounded_unreadable
  · exact bounded_unreadable

theorem bounded_begin (hstack : StackBounded stack) {t : Token} (ht : t.Bounded)
    (h : begin stack t = some (stack', expect')) : StackBounded stack' ∧ expect'.Bounded stack' := by
  cases t with
  | text s =>
      cases h
      refine ⟨hstack, ?_⟩
      cases s with
      | none => exact bounded_unreadable
      | some s => exact ⟨rfl, Nat.zero_le _⟩
  | atom j =>
      cases h
      have hj := ht j rfl
      exact ⟨hstack, hj.fits, Nat.le_trans hj.depth_le (Nat.zero_le _)⟩
  | openList =>
      cases h
      exact ⟨hstack, trivial⟩
  | openRecord =>
      cases h
      exact ⟨hstack, trivial⟩
  | closeRecord | closeList | comma | colon => cases h

/-- **What has been read stays bounded** with every token. -/
theorem bounded_advance (hstack : StackBounded stack) (hexpect : expect.Bounded stack) {t : Token}
    (ht : t.Bounded) (h : advance stack expect t = some (stack', expect')) :
    StackBounded stack' ∧ expect'.Bounded stack' := by
  cases expect with
  | value => exact bounded_begin hstack ht h
  | firstItem =>
      have hopen : StackBounded (.list [] :: stack) := ⟨fun x hx => (List.not_mem_nil hx).elim, hstack⟩
      cases t with
      | closeList =>
          cases h
          exact ⟨hstack, bounded_closeList fun x hx => (List.not_mem_nil hx).elim⟩
      | _ => exact bounded_begin hopen ht h
  | firstName =>
      cases t with
      | closeRecord =>
          cases h
          exact ⟨hstack, bounded_closeRecord fun e he => (List.not_mem_nil he).elim⟩
      | text s =>
          cases h
          exact ⟨hstack, fun e he => (List.not_mem_nil he).elim⟩
      | _ => cases h
  | name fields =>
      cases t with
      | text s =>
          cases h
          exact ⟨hstack, hexpect⟩
      | _ => cases h
  | colon fields s =>
      cases t with
      | colon =>
          cases h
          exact ⟨⟨hexpect, hstack⟩, trivial⟩
      | _ => cases h
  | after v =>
      cases stack with
      | nil => cases h
      | cons frame stack =>
          obtain ⟨hframe, hstack⟩ := hstack
          cases frame with
          | list items =>
              have hitems : ∀ x ∈ v :: items, x.Bounded (maxDepth - (stack.length + 1)) :=
                List.forall_mem_cons.2 ⟨hexpect, hframe⟩
              cases t with
              | comma =>
                  cases h
                  exact ⟨⟨hitems, hstack⟩, trivial⟩
              | closeList =>
                  cases h
                  exact ⟨hstack, bounded_closeList fun x hx => hitems x (List.mem_reverse.1 hx)⟩
              | _ => cases h
          | record fields s =>
              have hfields : ∀ e ∈ (s, v) :: fields, e.2.Bounded (maxDepth - (stack.length + 1)) :=
                List.forall_mem_cons.2 ⟨hexpect, hframe⟩
              cases t with
              | comma =>
                  cases h
                  exact ⟨hstack, hfields⟩
              | closeRecord =>
                  cases h
                  exact ⟨hstack, bounded_closeRecord fun e he => hfields e (List.mem_reverse.1 he)⟩
              | _ => cases h

theorem bounded_of_ofTokensFrom? {ts : List Token} (hstack : StackBounded stack)
    (hexpect : expect.Bounded stack) (hts : ∀ t ∈ ts, t.Bounded) {j : Json}
    (h : ofTokensFrom? stack expect ts = some j) : j.Bounded maxDepth := by
  induction ts generalizing stack expect with
  | nil =>
      cases stack with
      | cons frame stack => cases h
      | nil =>
          cases expect with
          | after v =>
              cases h
              exact hexpect
          | _ => cases h
  | cons t ts ih =>
      obtain ⟨ht, hts⟩ := List.forall_mem_cons.1 hts
      rw [ofTokensFrom?] at h
      split at h
      · cases h
      · rename_i stack' expect' hadvance
        obtain ⟨hstack', hexpect'⟩ := bounded_advance hstack hexpect ht hadvance
        exact ih hstack' hexpect' hts h

end

/-- **A document that is read has numbers in range and is not too deep.** -/
theorem bounded_of_parse? {s : String} {j : Json} (h : parse? s = some j) : j.Bounded maxDepth := by
  obtain ⟨ts, hts, h⟩ := Option.bind_eq_some_iff.1 h
  have hnone : ∀ t ∈ ([] : List Token), t.Bounded := fun t ht => (List.not_mem_nil ht).elim
  have hstack : StackBounded [] := trivial
  have hexpect : Expect.value.Bounded [] := trivial
  exact bounded_of_ofTokensFrom? hstack hexpect (bounded_of_scanFrom hnone hts) h

/-! ### Canonical form -/

theorem canonicalItems_eq_self {xs : List Json} (h : ∀ x ∈ xs, x.canonical = x) :
    canonicalItems xs = xs := by
  induction xs with
  | nil => rfl
  | cons x xs ih =>
      obtain ⟨hx, hxs⟩ := List.forall_mem_cons.1 h
      rw [canonicalItems, hx, ih hxs]

theorem canonicalFields_eq_self {fields : List (String × Json)}
    (h : ∀ e ∈ fields, e.2.canonical = e.2) : canonicalFields fields = fields := by
  induction fields with
  | nil => rfl
  | cons e fields ih =>
      obtain ⟨he, hfields⟩ := List.forall_mem_cons.1 h
      rw [canonicalFields, he, ih hfields]

/-- A list of values is a value. -/
theorem IsValue.list {xs : List Json} (h : ∀ x ∈ xs, x.IsValue) : (list xs).IsValue where
  readable := by
    rw [isReadable]
    exact readableItems_iff.2 fun x hx => (h x hx).readable
  canonical := by rw [Json.canonical, canonicalItems_eq_self fun x hx => (h x hx).canonical]
  fits := by
    rw [Json.fits]
    exact fitsItems_iff.2 fun x hx => (h x hx).fits

/-- A table of values is a value. -/
theorem IsValue.record {t : Keyed Json} (h : ∀ e ∈ t.entries, e.2.IsValue) :
    (record t.entries).IsValue where
  readable := by
    rw [isReadable]
    exact readableFields_iff.2 fun e he => (h e he).readable
  canonical := by
    rw [Json.canonical, canonicalFields_eq_self fun e he => (h e he).canonical,
      Keyed.ofList_entries]
  fits := by
    rw [Json.fits]
    exact fitsFields_iff.2 fun e he => (h e he).fits

mutual

/-- **The canonical form of a readable document is a value that a document can keep**, and no deeper. -/
theorem isValue_canonical : (j : Json) → {n : Nat} → j.isReadable = true → j.Bounded n →
    j.canonical.IsValue ∧ j.canonical.depth ≤ n
  | .unreadable, _, hread, _ => absurd hread (by simp [isReadable])
  | .null, n, _, _ | .bool _, n, _, _ | .text _, n, _, _ => ⟨⟨rfl, rfl, rfl⟩, Nat.zero_le n⟩
  | .int _, n, _, h | .real _, n, _, h => ⟨⟨rfl, rfl, h.fits⟩, Nat.zero_le n⟩
  | .list items, 0, _, h => absurd h.depth_le (by simp [depth])
  | .record fields, 0, _, h => absurd h.depth_le (by simp [depth])
  | .list items, n + 1, hread, h => by
      rw [isReadable] at hread
      have hitems := isValue_canonicalItems items hread (bounded_list_iff.1 h)
      rw [canonical]
      exact ⟨.list fun x hx => (hitems x hx).1, depth_list_le_iff.2 fun x hx => (hitems x hx).2⟩
  | .record fields, n + 1, hread, h => by
      rw [isReadable] at hread
      have hfields := isValue_canonicalFields fields hread (bounded_record_iff.1 h)
      have hentries : ∀ e ∈ (Keyed.ofList (canonicalFields fields)).entries,
          e.2.IsValue ∧ e.2.depth ≤ n := fun e he => hfields e (Keyed.mem_of_mem_ofList he)
      rw [canonical]
      exact ⟨.record fun e he => (hentries e he).1,
        depth_record_le_iff.2 fun e he => (hentries e he).2⟩

theorem isValue_canonicalItems : (xs : List Json) → {n : Nat} → readableItems xs = true →
    (∀ x ∈ xs, x.Bounded n) → ∀ x ∈ canonicalItems xs, x.IsValue ∧ x.depth ≤ n
  | [], _, _, _ => fun x hx => (List.not_mem_nil hx).elim
  | x :: xs, n, hread, h => by
      rw [readableItems, Bool.and_eq_true] at hread
      obtain ⟨hx, hxs⟩ := List.forall_mem_cons.1 h
      rw [canonicalItems]
      exact List.forall_mem_cons.2
        ⟨isValue_canonical x hread.1 hx, isValue_canonicalItems xs hread.2 hxs⟩

theorem isValue_canonicalFields : (fields : List (String × Json)) → {n : Nat} →
    readableFields fields = true → (∀ e ∈ fields, e.2.Bounded n) →
      ∀ e ∈ canonicalFields fields, e.2.IsValue ∧ e.2.depth ≤ n
  | [], _, _, _ => fun e he => (List.not_mem_nil he).elim
  | (k, x) :: fields, n, hread, h => by
      rw [readableFields, Bool.and_eq_true] at hread
      obtain ⟨hx, hfields⟩ := List.forall_mem_cons.1 h
      rw [canonicalFields]
      exact List.forall_mem_cons.2
        ⟨isValue_canonical x hread.1 hx, isValue_canonicalFields fields hread.2 hfields⟩

end

end Json

end VersionCatalog
