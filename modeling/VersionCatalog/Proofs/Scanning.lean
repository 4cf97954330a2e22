import VersionCatalog.Json.Reader
import VersionCatalog.Proofs.Numbers

/-!
# Scanning written documents

The tokens of a written document are found again when its text is scanned. A word or number ends only where
a character stands that cannot belong to it, so a piece of text is scanned in view of what follows
(`Scans`).

## Main results

* `scans_writeText`: a written string is one token.
* `scans_write`: a written document is its tokens, in every layout.
* `tokens?_write`: so is the text of a whole document.
-/

namespace VersionCatalog.Json

/-! ### Pieces of text -/

/-- What follows a word does not begin with a character that may belong to one. -/
def EndsWord (rest : List Char) : Prop :=
  ∀ c ∈ rest.head?, isWord c = false

theorem EndsWord.nil : EndsWord [] := by
  rintro c ⟨⟩

theorem EndsWord.cons {c : Char} {rest : List Char} (h : isWord c = false) : EndsWord (c :: rest) := by
  rintro d ⟨⟩
  exact h

/-- A piece of text makes up tokens, wherever it stands between others. -/
def Scans (cs : List Char) (ts : List Token) : Prop :=
  ∀ found rest, EndsWord rest →
    scanFrom found .gap (cs ++ rest) = scanFrom (ts.reverse ++ found) .gap rest

namespace Scans

theorem nil : Scans [] [] := fun _ _ _ => rfl

theorem append {cs ds : List Char} {ts us : List Token} (h : Scans cs ts) (h' : Scans ds us)
    (hends : ∀ rest, EndsWord rest → EndsWord (ds ++ rest)) : Scans (cs ++ ds) (ts ++ us) := by
  intro found rest hrest
  rw [List.append_assoc, h _ _ (hends rest hrest), h' _ _ hrest, List.reverse_append,
    List.append_assoc]

/-- A character of its own is a token. -/
theorem cons {c : Char} {t : Token} {ds : List Char} {us : List Token}
    (hc : Scan.start c = some (some t, .gap)) (h : Scans ds us) : Scans (c :: ds) (t :: us) := by
  intro found rest hrest
  rw [List.cons_append, scanFrom, Scan.step, hc]
  simp only [Option.map_some, Option.toList_some, List.singleton_append]
  rw [h _ _ hrest, List.reverse_cons, List.append_assoc, List.singleton_append]

/-- The letters of a word are collected. -/
theorem letters {found : List Token} {cs rest seen : List Char} (hcs : ∀ c ∈ cs, isWord c = true) :
    scanFrom found (.word seen) (cs ++ rest) = scanFrom found (.word (cs.reverse ++ seen)) rest := by
  induction cs generalizing seen with
  | nil => rfl
  | cons c cs ih =>
      obtain ⟨hc, hcs⟩ := List.forall_mem_cons.1 hcs
      rw [List.cons_append, scanFrom, Scan.step, if_pos hc]
      simp only [List.nil_append]
      rw [ih hcs, List.reverse_cons, List.append_assoc, List.singleton_append]

/-- A word ends before what cannot belong to it. -/
theorem endOfWord {found : List Token} {seen rest : List Char} {value : Json}
    (hvalue : atom? seen.reverse = some value) (hrest : EndsWord rest) :
    scanFrom found (.word seen) rest = scanFrom (.atom value :: found) .gap rest := by
  cases rest with
  | nil => simp [scanFrom, Scan.finish, hvalue]
  | cons c rest =>
      have hc : isWord c = false := hrest c rfl
      simp only [scanFrom, Scan.step, hc, hvalue, Bool.false_eq_true, if_false,
        Option.bind_eq_bind, Option.bind_some, Option.pure_def]
      cases hstart : Scan.start c with
      | none => rfl
      | some found' =>
          obtain ⟨t, m⟩ := found'
          simp

/-- The text of a word or number is one token. -/
theorem word {cs : List Char} {value : Json} (hne : cs ≠ []) (hcs : ∀ c ∈ cs, isWord c = true)
    (hvalue : atom? cs = some value) : Scans cs [.atom value] := by
  intro found rest hrest
  obtain ⟨c, cs, rfl⟩ := List.exists_cons_of_ne_nil hne
  obtain ⟨hc, htail⟩ := List.forall_mem_cons.1 hcs
  have hstart : Scan.start c = some (none, .word [c]) := by
    have hgap : isGap c = false := by
      rw [Bool.eq_false_iff]
      intro hgap
      simp only [isGap, Bool.or_eq_true, decide_eq_true_eq] at hgap
      rcases hgap with ((rfl | rfl) | rfl) | rfl <;> exact absurd hc (by decide)
    have hquote : c ≠ '"' := by
      rintro rfl
      exact absurd hc (by decide)
    simp [Scan.start, hgap, hquote, hc]
  rw [List.cons_append, scanFrom, Scan.step, hstart]
  simp only [Option.map_some, Option.toList_none, List.nil_append]
  have hseen : atom? (cs.reverse ++ [c]).reverse = some value := by simpa using hvalue
  rw [letters htail, endOfWord hseen hrest]
  rfl

end Scans

/-! ### Strings -/

theorem hexValue?_hexDigit {n : Nat} (h : n < 16) : Text.hexValue? (hexDigit n) = some n := by
  revert h
  exact (by decide : ∀ n < 16, Text.hexValue? (hexDigit n) = some n) n

/-- A control character is read from its code in hexadecimal digits. -/
theorem scan_code (found : List Token) (done : List Char) {c : Char} (h : c.toNat < 0x20)
    (rest : List Char) :
    scanFrom found (.text (some done))
        ('\\' :: 'u' :: '0' :: '0' :: hexDigit (c.toNat / 16) :: hexDigit (c.toNat % 16) :: rest)
      = scanFrom found (.text (some (c :: done))) rest := by
  have hhigh := hexValue?_hexDigit (n := c.toNat / 16) (by omega)
  have hlow := hexValue?_hexDigit (n := c.toNat % 16) (by omega)
  have hzero : Text.hexValue? '0' = some 0 := rfl
  have hcode : c.toNat / 16 * 16 + c.toNat % 16 = c.toNat := by omega
  have hchar : Scan.finishCode (some done) none c.toNat = .text (some (c :: done)) := by
    rw [Scan.finishCode, if_neg (by omega), if_neg (by omega), Char.ofNat_toNat]
    rfl
  simp [scanFrom, Scan.step, Scan.inText, Scan.inEscape, hhigh, hlow, hzero, hcode, hchar]

/-- A character of a string is read as it was written. -/
theorem scan_char (found : List Token) (done : List Char) (c : Char) (rest : List Char) :
    scanFrom found (.text (some done)) (escape c ++ rest)
      = scanFrom found (.text (some (c :: done))) rest := by
  unfold escape
  split
  case h_8 hquote hslash _ _ _ _ _ =>
    have hquote : c ≠ '"' := hquote
    have hslash : c ≠ '\\' := hslash
    split
    · rename_i hcontrol
      exact scan_code found done hcontrol rest
    · rename_i hplain
      simp [scanFrom, Scan.step, Scan.inText, hquote, hslash, hplain, push]
  all_goals rfl

/-- The characters of a string up to its end. -/
theorem scan_chars (found : List Token) (done cs rest : List Char) :
    scanFrom found (.text (some done)) (cs.flatMap escape ++ '"' :: rest)
      = scanFrom (.text (some (String.ofList (done.reverse ++ cs))) :: found) .gap rest := by
  induction cs generalizing done with
  | nil => simp [scanFrom, Scan.step, Scan.inText]
  | cons c cs ih =>
      rw [List.flatMap_cons, List.append_assoc, scan_char, ih]
      simp

/-- **A written string is one token.** -/
theorem scans_writeText (s : String) : Scans (writeText s) [.text (some s)] := by
  intro found rest _
  have hchars := scan_chars found [] s.toList rest
  rw [List.reverse_nil, List.nil_append, String.ofList_toList] at hchars
  rw [writeText, List.cons_append, List.cons_append, List.append_assoc, List.singleton_append,
    scanFrom]
  exact hchars

/-! ### Numbers -/

theorem isWord_of_isDigit {c : Char} (h : c.isDigit = true) : isWord c = true := by
  simp [isWord, Char.isAlphanum, h]

theorem isWord_of_mem_sign {negative : Bool} {c : Char} (h : c ∈ Text.Numeral.sign negative) :
    isWord c = true := by
  cases negative with
  | true =>
      rw [List.mem_singleton.1 h]
      rfl
  | false => exact absurd h (by simp [Text.Numeral.sign])

/-- All characters of a written numeral may belong to a word. -/
theorem isWord_of_mem_write {n : Text.Numeral} (hn : n.Proper) {c : Char} (h : c ∈ n.write) :
    isWord c = true := by
  obtain ⟨negative, whole, places, power⟩ := n
  obtain ⟨⟨k, rfl⟩, hplaces⟩ := hn
  simp only [Text.Numeral.write, List.mem_append] at h
  rcases h with h | h | h | h
  · exact isWord_of_mem_sign h
  · exact isWord_of_isDigit (Text.isDigit_of_mem_digits h)
  · cases places with
    | nil => cases h
    | cons d places =>
        rcases List.mem_cons.1 h with rfl | h
        · rfl
        · exact isWord_of_isDigit (hplaces c h)
  · cases power with
    | none => cases h
    | some power =>
        rcases List.mem_cons.1 h with rfl | h
        · rfl
        · rcases List.mem_append.1 h with h | h
          · exact isWord_of_mem_sign h
          · exact isWord_of_isDigit (Text.isDigit_of_mem_digits h)

/-- A number is not one of the three words. -/
theorem atom?_of_number {cs : List Char} {c : Char} (h : c ∈ cs) (hdigit : c.isDigit = true) :
    atom? cs = number? cs := by
  have hne : ∀ w : List Char, (w.all fun d => !d.isDigit) = true → cs ≠ w := by
    rintro w hw rfl
    have := List.all_eq_true.1 hw c h
    rw [hdigit] at this
    exact absurd this (by simp)
  rw [atom?, if_neg (hne _ (by decide)), if_neg (hne _ (by decide)), if_neg (hne _ (by decide))]

/-- **A written numeral is one token.** -/
theorem scans_writeNumeral {n : Text.Numeral} (hn : n.Proper) : Scans n.write [.atom (ofNumeral n)] := by
  obtain ⟨k, hk⟩ := hn.whole
  obtain ⟨c, cs, hcs, hdigit⟩ := Text.Numeral.exists_cons_digits k
  have hc : c ∈ n.write := by
    rw [Text.Numeral.write, hk, hcs]
    simp
  refine .word (List.ne_nil_of_mem hc) (fun c hc => isWord_of_mem_write hn hc) ?_
  rw [atom?_of_number hc hdigit, number?, hn.parse?_write, Option.map_some]

/-! ### Documents -/

mutual

/-- The document with its numbers as they are read back: those that are not whole, or too great for a word,
are read from their shortest digits. -/
def rounded : Json → Json
  | .real d => ofNumeral (numeral d)
  | .list items => .list (roundedItems items)
  | .record fields => .record (roundedFields fields)
  | .null => .null
  | .bool b => .bool b
  | .int n => .int n
  | .text s => .text s
  | .unreadable => .unreadable

/-- The items of a list with their numbers as they are read back. -/
def roundedItems : List Json → List Json
  | [] => []
  | x :: xs => rounded x :: roundedItems xs

/-- The fields of a record with their numbers as they are read back. -/
def roundedFields : List (String × Json) → List (String × Json)
  | [] => []
  | (k, x) :: xs => (k, rounded x) :: roundedFields xs

end

mutual

/-- Whether all whole numbers of a document fit a word. -/
def fits : Json → Bool
  | .int n => fitsWord 64 n
  | .list items => fitsItems items
  | .record fields => fitsFields fields
  | _ => true

/-- Whether the whole numbers of all items of a list fit a word. -/
def fitsItems : List Json → Bool
  | [] => true
  | x :: xs => fits x && fitsItems xs

/-- Whether the whole numbers of all values of a record fit a word. -/
def fitsFields : List (String × Json) → Bool
  | [] => true
  | (_, x) :: xs => fits x && fitsFields xs

end

mutual

/-- The tokens that a document is made of. -/
def tokens : Json → List Token
  | .unreadable => [.atom .null]
  | .text s => [.text (some s)]
  | .list [] => [.openList, .closeList]
  | .list (x :: xs) => .openList :: (tokens x ++ (tokensOfItems xs ++ [.closeList]))
  | .record [] => [.openRecord, .closeRecord]
  | .record ((k, x) :: xs) =>
    .openRecord :: .text (some k) :: .colon :: (tokens x ++ (tokensOfFields xs ++ [.closeRecord]))
  | .null => [.atom .null]
  | .bool b => [.atom (.bool b)]
  | .int n => [.atom (.int n)]
  | .real d => [.atom (.real d)]

/-- The tokens of a list's items after its first one. -/
def tokensOfItems : List Json → List Token
  | [] => []
  | x :: xs => .comma :: (tokens x ++ tokensOfItems xs)

/-- The tokens of a record's fields after its first one. -/
def tokensOfFields : List (String × Json) → List Token
  | [] => []
  | (k, x) :: xs => .comma :: .text (some k) :: .colon :: (tokens x ++ tokensOfFields xs)

end

theorem tokens_ofNumeral_numeral (d : Double) :
    tokens (ofNumeral (numeral d)) = [.atom (ofNumeral (numeral d))] := by
  obtain ⟨e, he⟩ := exists_ofNumeral_numeral d
  rw [he, tokens]

theorem scans_writeInt {n : Int} (h : fitsWord 64 n = true) :
    Scans (writeInt n) [.atom (.int n)] := by
  have hread := number?_writeInt h
  rw [number?, writeInt, (Text.Numeral.proper_ofInt n).parse?_write] at hread
  rw [← Option.some.inj hread]
  exact scans_writeNumeral (Text.Numeral.proper_ofInt n)

/-! ### Lines -/

section

variable {l : Layout} {depth : Nat} {ds : List Char} {us : List Token} {rest : List Char}

/-- What is between tokens is none. -/
theorem Scans.gap {c : Char} (hc : Scan.start c = some (none, .gap)) (h : Scans ds us) :
    Scans (c :: ds) us := by
  intro found rest hrest
  rw [List.cons_append, scanFrom, Scan.step, hc]
  exact h _ _ hrest

/-- The end of a line and the blanks at the start of the next one. -/
theorem Scans.line (l : Layout) (depth : Nat) (h : Scans ds us) : Scans (l.line depth ++ ds) us := by
  cases l with
  | compact => exact h
  | indented =>
      refine .gap rfl ?_
      generalize 2 * depth = count
      induction count with
      | zero => exact h
      | succ count ih => exact .gap rfl ih

theorem Scans.colon (l : Layout) (h : Scans ds us) : Scans (l.colon ++ ds) (.colon :: us) := by
  cases l with
  | compact => exact .cons rfl h
  | indented => exact .cons rfl (.gap rfl h)

/-- The end of a list or record. -/
theorem Scans.close {c : Char} {t : Token} (hc : Scan.start c = some (some t, .gap)) :
    Scans [c] [t] :=
  .cons hc .nil

theorem EndsWord.line (h : EndsWord rest) : EndsWord (l.line depth ++ rest) := by
  cases l with
  | compact => exact h
  | indented => exact .cons rfl

theorem EndsWord.colon : EndsWord (l.colon ++ rest) := by
  cases l <;> exact .cons rfl

theorem EndsWord.writeItems {xs : List Json} (h : EndsWord rest) :
    EndsWord (writeItems l depth xs ++ rest) := by
  cases xs with
  | nil => exact h
  | cons x xs => exact .cons rfl

theorem EndsWord.writeFields {xs : List (String × Json)} (h : EndsWord rest) :
    EndsWord (writeFields l depth xs ++ rest) := by
  cases xs with
  | nil => exact h
  | cons x xs => exact .cons rfl

end

mutual

/-- **A written document is the tokens of what is read back of its numbers**, in every layout. -/
theorem scans_write (l : Layout) : (j : Json) → (depth : Nat) → j.fits = true →
    Scans (write l depth j) (tokens j.rounded)
  | .null, _, _ | .unreadable, _, _ => .word (List.cons_ne_nil _ _) (List.all_eq_true.1 rfl) rfl
  | .bool true, _, _ | .bool false, _, _ =>
      .word (List.cons_ne_nil _ _) (List.all_eq_true.1 rfl) rfl
  | .int n, _, h => scans_writeInt h
  | .real d, _, _ => by
      rw [rounded, tokens_ofNumeral_numeral]
      exact scans_writeNumeral (proper_numeral d)
  | .text s, _, _ => scans_writeText s
  | .list [], _, _ => .cons rfl (.close rfl)
  | .list (x :: xs), depth, h => by
      rw [fits, fitsItems, Bool.and_eq_true] at h
      have hitems := (scans_writeItems l xs (depth + 1) h.2).append (.line l depth (.close (c := ']') rfl))
        fun rest _ => by
          rw [List.append_assoc]
          exact .line (.cons rfl)
      exact .cons rfl (.line l (depth + 1) ((scans_write l x (depth + 1) h.1).append hitems
        fun rest _ => by
          rw [List.append_assoc, List.append_assoc]
          exact .writeItems (.line (.cons rfl))))
  | .record [], _, _ => .cons rfl (.close rfl)
  | .record ((k, x) :: xs), depth, h => by
      rw [fits, fitsFields, Bool.and_eq_true] at h
      have hfields := (scans_writeFields l xs (depth + 1) h.2).append
        (.line l depth (.close (c := '}') rfl))
        fun rest _ => by
          rw [List.append_assoc]
          exact .line (.cons rfl)
      have hvalue := (scans_write l x (depth + 1) h.1).append hfields fun rest _ => by
        rw [List.append_assoc, List.append_assoc]
        exact .writeFields (.line (.cons rfl))
      exact .cons rfl (.line l (depth + 1) ((scans_writeText k).append (.colon l hvalue)
        fun rest _ => by
          rw [List.append_assoc]
          exact .colon))

/-- A list's items after its first one. -/
theorem scans_writeItems (l : Layout) : (xs : List Json) → (depth : Nat) → fitsItems xs = true →
    Scans (writeItems l depth xs) (tokensOfItems (roundedItems xs))
  | [], _, _ => .nil
  | x :: xs, depth, h => by
      rw [fitsItems, Bool.and_eq_true] at h
      exact .cons rfl (.line l depth ((scans_write l x depth h.1).append
        (scans_writeItems l xs depth h.2) fun _ hrest => hrest.writeItems))

/-- A record's fields after its first one. -/
theorem scans_writeFields (l : Layout) : (xs : List (String × Json)) → (depth : Nat) →
    fitsFields xs = true → Scans (writeFields l depth xs) (tokensOfFields (roundedFields xs))
  | [], _, _ => .nil
  | (k, x) :: xs, depth, h => by
      rw [fitsFields, Bool.and_eq_true] at h
      have hvalue := (scans_write l x depth h.1).append (scans_writeFields l xs depth h.2)
        fun _ hrest => hrest.writeFields
      exact .cons rfl (.line l depth ((scans_writeText k).append (.colon l hvalue) fun rest _ => by
        rw [List.append_assoc]
        exact .colon))

end

/-- **The text of a document is scanned to its tokens**, in every layout. -/
theorem tokens?_write (l : Layout) {j : Json} (h : j.fits = true) :
    tokens? (write l 0 j) = some (tokens j.rounded) := by
  have hscans := scans_write l j 0 h [] [] .nil
  rw [List.append_nil] at hscans
  rw [tokens?, hscans]
  simp [scanFrom, Scan.finish]

end VersionCatalog.Json
