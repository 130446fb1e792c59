import CachelibArchive.Backend.Rows

/-!
# Documents

MongoDB keeps a row as a document, one member for every field, and caches the document as JSON
text. `bsoncxx` writes the text and reads it back; the loop over the members is the backend's.
-/

namespace CachelibArchive.Backend

open Text

/-- A document of the backend: `_id`, and members that are strings. -/
structure Document where
  id : Int
  members : List (List UInt8 × List UInt8)
  deriving DecidableEq

/-- `"field" + std::to_string(i)`. -/
def fieldName (i : Nat) : List UInt8 := ascii "field" ++ decimal i

/-- The members `field1`, `field2`, ... from the `i`-th on. -/
def fieldMembers : Nat → List (List UInt8) → List (List UInt8 × List UInt8)
  | _, [] => []
  | i, v :: vs => (fieldName i, v) :: fieldMembers (i + 1) vs

/-- The document `insert_record` builds; without values the filter of `read_record`. -/
def document (key : Int) (values : List (List UInt8)) : Document := ⟨key, fieldMembers 1 values⟩

/-- The loop of `read_record` over a document: the members that are there, of `MAX_FIELDS`. -/
def Document.fields (d : Document) (maxFields : Nat) : List (List UInt8) :=
  (List.range maxFields).filterMap fun i => d.members.lookup (fieldName (i + 1))

theorem fieldName_injective : Function.Injective fieldName :=
  fun _ _ h => decimal_injective (List.append_cancel_left h)

theorem lookup_fieldMembers (values : List (List UInt8)) (i j : Nat) :
    (fieldMembers i values).lookup (fieldName (i + j)) = values[j]? := by
  induction values generalizing i j with
  | nil => rfl
  | cons v vs ih =>
    cases j with
    | zero => simp [fieldMembers]
    | succ j =>
      have hne : (fieldName (i + (j + 1)) == fieldName i) = false :=
        beq_false_of_ne (fieldName_injective.ne (by omega))
      rw [fieldMembers, List.lookup_cons, hne, List.getElem?_cons_succ, ← ih (i + 1) j,
        Nat.add_assoc, Nat.add_comm 1 j]

theorem filterMap_range_getElem? {α : Type} (vs : List α) :
    (List.range vs.length).filterMap (fun i => vs[i]?) = vs := by
  induction vs with
  | nil => rfl
  | cons v vs ih =>
    rw [List.length_cons, List.range_succ_eq_map, List.filterMap_cons, List.filterMap_map]
    exact congrArg (v :: ·) ih

/-- The loop reads the values of a whole row. -/
theorem fields_document (key : Int) (values : List (List UInt8)) :
    (document key values).fields values.length = values := by
  have hlookup : ∀ i, (document key values).members.lookup (fieldName (i + 1)) = values[i]? := by
    intro i
    rw [document, Nat.add_comm, lookup_fieldMembers]
  simp only [Document.fields, hlookup]
  exact filterMap_range_getElem? values

/-- What `bsoncxx` does for the backend: `to_json` and `from_json`. The text of a document holds
no NUL, and is read back as the document it was written for. -/
structure JsonCodec where
  toJson : Document → List UInt8
  fromJson : List UInt8 → Document
  text : ∀ (key : Int) (values : List (List UInt8)), (∀ v ∈ values, isUtf8 v = true ∧ 0 ∉ v) →
    0 ∉ toJson (document key values)
  back : ∀ (key : Int) (values : List (List UInt8)), (∀ v ∈ values, isUtf8 v = true ∧ 0 ∉ v) →
    fromJson (toJson (document key values)) = document key values

/-! ## The text -/

/-- A byte of a hexadecimal numeral. -/
def hexDigit (n : Nat) : UInt8 := if n < 10 then n.toUInt8 + 48 else n.toUInt8 + 87

/-- The value of such a byte. -/
def hexValue (b : UInt8) : Nat := if b.toNat < 58 then b.toNat - 48 else b.toNat - 87

/-- A quote, a backslash or a control character is written by its number. -/
def escape : List UInt8 → List UInt8
  | [] => []
  | b :: s =>
    if b = 34 ∨ b = 92 ∨ b < 32 then
      ascii "\\u00" ++ hexDigit (b.toNat / 16) :: hexDigit (b.toNat % 16) :: escape s
    else b :: escape s

/-- The text with its escapes read back. -/
def unescape : List UInt8 → List UInt8
  | 92 :: 117 :: 48 :: 48 :: h :: l :: s => (16 * hexValue h + hexValue l).toUInt8 :: unescape s
  | b :: s => b :: unescape s
  | [] => []

/-- A JSON string. -/
def quoted (s : List UInt8) : List UInt8 := 34 :: (escape s ++ [34])

/-- The members of a document behind `_id`. -/
def membersJson (members : List (List UInt8 × List UInt8)) : List UInt8 :=
  members.flatMap fun m => ascii ", " ++ quoted m.1 ++ ascii " : " ++ quoted m.2

/-- The text of a document. -/
def Document.toJson (d : Document) : List UInt8 :=
  ascii "\x7b " ++ quoted (ascii "_id") ++ ascii " : " ++ decimalInt d.id ++ membersJson d.members ++
    ascii " \x7d"

/-- The members in the pieces between the quotes: name, colon, value, comma. -/
def membersOfPieces : List (List UInt8) → List (List UInt8 × List UInt8)
  | name :: _ :: v :: _ :: rest => (unescape name, unescape v) :: membersOfPieces rest
  | _ => []

/-- The integer a text begins with, zero if there is none. -/
def readInt (s : List UInt8) : Int :=
  match readNumeral s with
  | some (minus, n, _) => if minus then -n else n
  | none => 0

/-- The document a text was written for. -/
def Document.ofJson (text : List UInt8) : Document :=
  match split 34 text with
  | _ :: _ :: idPiece :: rest => ⟨readInt (idPiece.drop 2), membersOfPieces rest⟩
  | _ => ⟨0, []⟩

theorem hexValue_hexDigit : ∀ n < 16, hexValue (hexDigit n) = n := by decide

theorem unescape_escape (s : List UInt8) : unescape (escape s) = s := by
  have hlead : ascii "\\u00" = [92, 117, 48, 48] := by decide +kernel
  induction s with
  | nil => rfl
  | cons b s ih =>
    rw [escape]
    split_ifs with hb
    · have hhigh : b.toNat / 16 < 16 := by have := b.toNat_lt; omega
      have hbyte : 16 * (b.toNat / 16) + b.toNat % 16 = b.toNat := Nat.div_add_mod ..
      rw [hlead]
      show (16 * hexValue _ + hexValue _).toUInt8 :: unescape (escape s) = b :: s
      rw [ih, hexValue_hexDigit _ hhigh, hexValue_hexDigit _ (Nat.mod_lt _ (by decide)), hbyte,
        Nat.toUInt8, UInt8.ofNat_toNat]
    · have hne : b ≠ 92 := fun h => hb (.inr (.inl h))
      rw [unescape, ih]
      rintro h l s' rfl
      exact absurd rfl hne

/-- Neither a quote nor a control character is left in an escaped text. -/
theorem not_mem_escape {b : UInt8} (hb : b = 34 ∨ b < 32) (s : List UInt8) : b ∉ escape s := by
  have hlead : ∀ c ∈ ascii "\\u00", ¬(c = 34 ∨ c < 32) := by decide +kernel
  have hdigit : ∀ n < 16, ¬(hexDigit n = 34 ∨ hexDigit n < 32) := by decide
  induction s with
  | nil => exact List.not_mem_nil
  | cons c s ih =>
    rw [escape]
    split_ifs with hc
    · have hhigh : c.toNat / 16 < 16 := by have := c.toNat_lt; omega
      have hlow : c.toNat % 16 < 16 := Nat.mod_lt _ (by decide)
      rw [List.mem_append, List.mem_cons, List.mem_cons]
      rintro (h | rfl | rfl | h)
      · exact hlead b h hb
      · exact hdigit _ hhigh hb
      · exact hdigit _ hlow hb
      · exact ih h
    · rw [List.mem_cons]
      rintro (rfl | h)
      · exact hc (hb.imp_right .inr)
      · exact ih h

theorem quote_not_mem_decimalInt (key : Int) : (34 : UInt8) ∉ decimalInt key := fun h =>
  absurd (of_mem_decimalInt h).1 (by decide)

/-- Cut at the quotes, the members are read back, whatever stands in front of them and behind. -/
theorem split_membersJson (members : List (List UInt8 × List UInt8)) {front back : List UInt8}
    (hfront : (34 : UInt8) ∉ front) (hback : (34 : UInt8) ∉ back) :
    ∃ piece pieces, split 34 (front ++ membersJson members ++ back) = piece :: pieces ∧
      membersOfPieces pieces = members ∧ ∃ rest, piece = front ++ rest ∧
        (rest = back ∨ rest = ascii ", ") := by
  have hcomma : (34 : UInt8) ∉ ascii ", " := by decide +kernel
  have hcolon : (34 : UInt8) ∉ ascii " : " := by decide +kernel
  induction members generalizing front with
  | nil =>
    have hplain : (34 : UInt8) ∉ front ++ back := by simp [hfront, hback]
    refine ⟨front ++ back, [], ?_, rfl, back, rfl, .inl rfl⟩
    rw [membersJson, List.flatMap_nil, List.append_nil, split_of_not_mem hplain]
  | cons m members ih =>
    obtain ⟨piece, pieces, hsplit, hmembers, -⟩ := @ih [] List.not_mem_nil
    rw [List.nil_append] at hsplit
    have htext : front ++ membersJson (m :: members) ++ back =
        (front ++ ascii ", ") ++ 34 :: (escape m.1 ++ 34 :: (ascii " : " ++
          34 :: (escape m.2 ++ 34 :: (membersJson members ++ back)))) := by
      simp [membersJson, quoted]
    have hlead : (34 : UInt8) ∉ front ++ ascii ", " := by simp [hfront, hcomma]
    have hescape : ∀ s, (34 : UInt8) ∉ escape s := not_mem_escape (.inl rfl)
    rw [htext, split_append hlead, split_append (hescape m.1), split_append hcolon,
      split_append (hescape m.2), hsplit]
    refine ⟨_, _, rfl, ?_, ascii ", ", rfl, .inr rfl⟩
    rw [membersOfPieces, hmembers, unescape_escape, unescape_escape]

/-- An integer is read back, whatever follows it that is no digit. -/
theorem readInt_decimalInt (i : Int) {rest : List UInt8}
    (hrest : ∀ b ∈ rest.head?, isDigit b = false) : readInt (32 :: (decimalInt i ++ rest)) = i := by
  have hblank : ∀ s, readNumeral (32 :: s) = readNumeral s := fun s => by
    simp [readNumeral, isSpace]
  rw [readInt, hblank]
  cases i with
  | ofNat n =>
    rw [decimalInt, readNumeral_decimal_append n hrest]
    rfl
  | negSucc n =>
    rw [decimalInt, List.cons_append, readNumeral_minus (n + 1) hrest]
    rfl

/-- What is written is read back. -/
theorem Document.ofJson_toJson (d : Document) : ofJson d.toJson = d := by
  have hbrace : (34 : UInt8) ∉ ascii "\x7b " := by decide +kernel
  have hid : (34 : UInt8) ∉ escape (ascii "_id") := not_mem_escape (.inl rfl) _
  have hcolon : (34 : UInt8) ∉ ascii " : " ++ decimalInt d.id := by
    have hplain : (34 : UInt8) ∉ ascii " : " := by decide +kernel
    simp [hplain, quote_not_mem_decimalInt]
  have hback : (34 : UInt8) ∉ ascii " \x7d" := by decide +kernel
  obtain ⟨piece, pieces, hsplit, hmembers, rest, rfl, hrest⟩ :=
    split_membersJson d.members hcolon hback
  have htext : d.toJson = ascii "\x7b " ++ 34 :: (escape (ascii "_id") ++ 34 :: (ascii " : " ++
      decimalInt d.id ++ membersJson d.members ++ ascii " \x7d")) := by
    simp [toJson, quoted]
  have hdigit : ∀ b ∈ rest.head?, isDigit b = false := by
    obtain rfl | rfl := hrest <;> decide +kernel
  have hdrop : (ascii " : " ++ decimalInt d.id ++ rest).drop 2 =
      32 :: (decimalInt d.id ++ rest) := by
    have hcolon : ascii " : " = [32, 58, 32] := by decide +kernel
    rw [hcolon]
    rfl
  rw [htext, ofJson, split_append hbrace, split_append hid, hsplit]
  simp only [hmembers, hdrop, readInt_decimalInt d.id hdigit]

theorem zero_not_mem_quoted (s : List UInt8) : (0 : UInt8) ∉ quoted s := by
  simp [quoted, not_mem_escape (b := 0) (.inr (by decide)) s]

theorem Document.zero_not_mem_toJson (d : Document) : (0 : UInt8) ∉ d.toJson := by
  have hbrace : (0 : UInt8) ∉ ascii "\x7b " := by decide +kernel
  have hcolon : (0 : UInt8) ∉ ascii " : " := by decide +kernel
  have hcomma : (0 : UInt8) ∉ ascii ", " := by decide +kernel
  have hback : (0 : UInt8) ∉ ascii " \x7d" := by decide +kernel
  have hmembers : (0 : UInt8) ∉ membersJson d.members := by
    intro h
    obtain ⟨m, -, hm⟩ := List.mem_flatMap.mp h
    simp [hcomma, hcolon, zero_not_mem_quoted] at hm
  simp [toJson, hbrace, hcolon, hback, hmembers, zero_not_mem_quoted, zero_not_mem_decimalInt]

/-- The text `to_json` writes in its legacy mode, with every escape as a number. -/
def legacyJson : JsonCodec where
  toJson := Document.toJson
  fromJson := Document.ofJson
  text key values _ := (document key values).zero_not_mem_toJson
  back key values _ := (document key values).ofJson_toJson

end CachelibArchive.Backend
