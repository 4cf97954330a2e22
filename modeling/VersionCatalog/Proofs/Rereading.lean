import VersionCatalog.Proofs.Scanning

/-!
# Reading written documents

What reading makes of a document's tokens (`Json.reread`): the document itself, but for lists and records that
stand in too many others, which come back unreadable. So a document that is not too deep is read back as
it was, but for its numbers (`Json.rounded`), and no other one is readable when it is read back.

## Main results

* `Json.parse?_toTextIn`: a written document is read back, in every layout.
* `Json.reread_eq_self`, `Json.isReadable_reread_of_lt`: what is read back, by its depth.
-/

namespace VersionCatalog.Json

/-! ### What reading makes of a document -/

mutual

/-- What comes back of a document that stands inside `n` lists and records. -/
def reread (n : Nat) : Json → Json
  | .unreadable => .null
  | .list items => if n < maxDepth then .list (rereadItems (n + 1) items) else .unreadable
  | .record fields => if n < maxDepth then .record (rereadFields (n + 1) fields) else .unreadable
  | .null => .null
  | .bool b => .bool b
  | .int n => .int n
  | .real d => .real d
  | .text s => .text s

/-- What comes back of a list's items. -/
def rereadItems (n : Nat) : List Json → List Json
  | [] => []
  | x :: xs => reread n x :: rereadItems n xs

/-- What comes back of a record's fields. -/
def rereadFields (n : Nat) : List (String × Json) → List (String × Json)
  | [] => []
  | (k, x) :: xs => (k, reread n x) :: rereadFields n xs

end

/-! ### From tokens to documents -/

/-- Names that have characters to show are what they are. -/
theorem closeRecord_map (stack : List Frame) (fields : List (String × Json)) :
    closeRecord stack (fields.map fun e => (some e.1, e.2))
      = if stack.length < maxDepth then .record fields else .unreadable := by
  have hnames : (fields.map fun e => (some e.1, e.2)).mapM
      (fun e => e.1.map fun name => (name, e.2)) = some fields := by
    induction fields with
    | nil => rfl
    | cons e fields ih =>
        rw [List.map_cons, List.mapM_cons, ih]
        rfl
  unfold closeRecord
  exact hnames ▸ rfl

/-- A document begins with no end. -/
theorem exists_tokens (j : Json) : ∃ t ts, tokens j = t :: ts ∧ t ≠ .closeList := by
  cases j with
  | list items => cases items <;> exact ⟨_, _, rfl, by simp⟩
  | record fields =>
      cases fields with
      | nil => exact ⟨_, _, rfl, by simp⟩
      | cons e fields =>
          obtain ⟨k, x⟩ := e
          exact ⟨_, _, rfl, by simp⟩
  | _ => exact ⟨_, _, rfl, by simp⟩

/-- The first item of a list is read like any other. -/
theorem ofTokensFrom?_firstItem (stack : List Frame) (j : Json) (rest : List Token) :
    ofTokensFrom? stack .firstItem (tokens j ++ rest)
      = ofTokensFrom? (.list [] :: stack) .value (tokens j ++ rest) := by
  obtain ⟨t, ts, hts, hne⟩ := exists_tokens j
  have hfirst : advance stack .firstItem t = begin (.list [] :: stack) t := by
    cases t <;> first | rfl | exact absurd rfl hne
  rw [hts, List.cons_append, ofTokensFrom?, ofTokensFrom?, hfirst]
  rfl

mutual

/-- **The tokens of a document are read as what comes back of it.** -/
theorem ofTokensFrom?_tokens : (j : Json) → (stack : List Frame) → (rest : List Token) →
    ofTokensFrom? stack .value (tokens j ++ rest)
      = ofTokensFrom? stack (.after (reread stack.length j)) rest
  | .null, _, _ | .unreadable, _, _ | .bool _, _, _ | .int _, _, _ | .real _, _, _
  | .text _, _, _ => rfl
  | .list [], _, _ => rfl
  | .list (x :: xs), stack, rest => by
      have hopen : ofTokensFrom? stack .value (tokens (.list (x :: xs)) ++ rest)
          = ofTokensFrom? stack .firstItem
            (tokens x ++ (tokensOfItems xs ++ .closeList :: rest)) := by
        rw [tokens, List.cons_append, List.append_assoc, List.append_assoc]
        rfl
      rw [hopen, ofTokensFrom?_firstItem, ofTokensFrom?_tokens x, ofTokensFrom?_items xs]
      rfl
  | .record [], _, _ => rfl
  | .record ((k, x) :: xs), stack, rest => by
      have hopen : ofTokensFrom? stack .value (tokens (.record ((k, x) :: xs)) ++ rest)
          = ofTokensFrom? (.record [] (some k) :: stack) .value
            (tokens x ++ (tokensOfFields xs ++ .closeRecord :: rest)) := by
        rw [tokens, List.cons_append, List.cons_append, List.cons_append, List.append_assoc,
          List.append_assoc]
        rfl
      rw [hopen, ofTokensFrom?_tokens x, ofTokensFrom?_fields xs]
      have hfields : ([(some k, reread (Frame.record [] (some k) :: stack).length x)].reverse
          ++ (rereadFields (stack.length + 1) xs).map fun e => (some e.1, e.2))
            = (rereadFields (stack.length + 1) ((k, x) :: xs)).map fun e => (some e.1, e.2) := rfl
      rw [hfields, closeRecord_map]
      rfl

/-- The items of a list after the last one that was read. -/
theorem ofTokensFrom?_items : (xs : List Json) → (stack : List Frame) → (done : List Json) →
    (v : Json) → (rest : List Token) →
    ofTokensFrom? (.list done :: stack) (.after v) (tokensOfItems xs ++ .closeList :: rest)
      = ofTokensFrom? stack (.after (closeList stack
          ((v :: done).reverse ++ rereadItems (stack.length + 1) xs))) rest
  | [], _, _, _, _ => by
      rw [rereadItems, List.append_nil]
      rfl
  | x :: xs, stack, done, v, rest => by
      have hcomma : ofTokensFrom? (.list done :: stack) (.after v)
          (tokensOfItems (x :: xs) ++ .closeList :: rest)
            = ofTokensFrom? (.list (v :: done) :: stack) .value
              (tokens x ++ (tokensOfItems xs ++ .closeList :: rest)) := by
        rw [tokensOfItems, List.cons_append, List.append_assoc]
        rfl
      rw [hcomma, ofTokensFrom?_tokens x, ofTokensFrom?_items xs, List.reverse_cons,
        List.append_assoc]
      rfl

/-- The fields of a record after the last one that was read. -/
theorem ofTokensFrom?_fields : (xs : List (String × Json)) → (stack : List Frame) →
    (done : List (Option String × Json)) → (s : Option String) → (v : Json) →
    (rest : List Token) →
    ofTokensFrom? (.record done s :: stack) (.after v) (tokensOfFields xs ++ .closeRecord :: rest)
      = ofTokensFrom? stack (.after (closeRecord stack (((s, v) :: done).reverse
          ++ (rereadFields (stack.length + 1) xs).map fun e => (some e.1, e.2)))) rest
  | [], _, _, _, _, _ => by
      rw [rereadFields, List.map_nil, List.append_nil]
      rfl
  | (k, x) :: xs, stack, done, s, v, rest => by
      have hcomma : ofTokensFrom? (.record done s :: stack) (.after v)
          (tokensOfFields ((k, x) :: xs) ++ .closeRecord :: rest)
            = ofTokensFrom? (.record ((s, v) :: done) (some k) :: stack) .value
              (tokens x ++ (tokensOfFields xs ++ .closeRecord :: rest)) := by
        rw [tokensOfFields, List.cons_append, List.cons_append, List.cons_append, List.append_assoc]
        rfl
      rw [hcomma, ofTokensFrom?_tokens x, ofTokensFrom?_fields xs, List.reverse_cons,
        List.append_assoc]
      rfl

end

/-- **A written document is read back**, as what comes back of it and of its numbers. -/
theorem parse?_toTextIn (l : Layout) {j : Json} (h : j.fits = true) :
    parse? (j.toTextIn l) = some (reread 0 j.rounded) := by
  have htokens := ofTokensFrom?_tokens j.rounded [] []
  rw [List.append_nil] at htokens
  rw [parse?, toTextIn, String.toList_ofList, tokens?_write l h, Option.bind_some, ofTokens?, htokens]
  rfl

/-! ### What comes back, by its depth -/

mutual

/-- A readable document that is not too deep comes back as it was. -/
theorem reread_eq_self : (j : Json) → {n : Nat} → j.isReadable = true → n + j.depth ≤ maxDepth →
    reread n j = j
  | .null, _, _, _ | .bool _, _, _, _ | .int _, _, _, _ | .real _, _, _, _ | .text _, _, _, _ => by
      rw [reread]
  | .unreadable, _, h, _ => absurd h (by simp [isReadable])
  | .list items, n, h, hdepth => by
      rw [isReadable] at h
      rw [depth] at hdepth
      rw [reread, if_pos (by omega), rereadItems_eq_self items h (by omega)]
  | .record fields, n, h, hdepth => by
      rw [isReadable] at h
      rw [depth] at hdepth
      rw [reread, if_pos (by omega), rereadFields_eq_self fields h (by omega)]

theorem rereadItems_eq_self : (xs : List Json) → {n : Nat} → readableItems xs = true →
    n + depthItems xs ≤ maxDepth → rereadItems n xs = xs
  | [], _, _, _ => rfl
  | x :: xs, n, h, hdepth => by
      rw [readableItems, Bool.and_eq_true] at h
      rw [depthItems] at hdepth
      rw [rereadItems, reread_eq_self x h.1 (by omega), rereadItems_eq_self xs h.2 (by omega)]

theorem rereadFields_eq_self : (xs : List (String × Json)) → {n : Nat} →
    readableFields xs = true → n + depthFields xs ≤ maxDepth → rereadFields n xs = xs
  | [], _, _, _ => rfl
  | (k, x) :: xs, n, h, hdepth => by
      rw [readableFields, Bool.and_eq_true] at h
      rw [depthFields] at hdepth
      rw [rereadFields, reread_eq_self x h.1 (by omega), rereadFields_eq_self xs h.2 (by omega)]

end

mutual

/-- A document that is too deep does not come back readable. -/
theorem isReadable_reread_of_lt : (j : Json) → {n : Nat} → n ≤ maxDepth →
    maxDepth < n + j.depth → (reread n j).isReadable = false
  | .null, _, hn, h | .bool _, _, hn, h | .int _, _, hn, h | .real _, _, hn, h
  | .text _, _, hn, h | .unreadable, _, hn, h => by
      simp only [depth] at h
      omega
  | .list items, n, hn, h => by
      rw [depth] at h
      rw [reread]
      split
      · rw [isReadable]
        exact readableItems_reread_of_lt items (by omega) (by omega)
      · rfl
  | .record fields, n, hn, h => by
      rw [depth] at h
      rw [reread]
      split
      · rw [isReadable]
        exact readableFields_reread_of_lt fields (by omega) (by omega)
      · rfl

theorem readableItems_reread_of_lt : (xs : List Json) → {n : Nat} → n ≤ maxDepth →
    maxDepth < n + depthItems xs → readableItems (rereadItems n xs) = false
  | [], _, hn, h => by
      rw [depthItems] at h
      omega
  | x :: xs, n, hn, h => by
      rw [depthItems] at h
      rw [rereadItems, readableItems]
      by_cases hx : maxDepth < n + x.depth
      · rw [isReadable_reread_of_lt x hn hx, Bool.false_and]
      · rw [readableItems_reread_of_lt xs hn (by omega), Bool.and_false]

theorem readableFields_reread_of_lt : (xs : List (String × Json)) → {n : Nat} → n ≤ maxDepth →
    maxDepth < n + depthFields xs → readableFields (rereadFields n xs) = false
  | [], _, hn, h => by
      rw [depthFields] at h
      omega
  | (k, x) :: xs, n, hn, h => by
      rw [depthFields] at h
      rw [rereadFields, readableFields]
      by_cases hx : maxDepth < n + x.depth
      · rw [isReadable_reread_of_lt x hn hx, Bool.false_and]
      · rw [readableFields_reread_of_lt xs hn (by omega), Bool.and_false]

end

end VersionCatalog.Json
