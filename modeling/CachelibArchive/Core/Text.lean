import CachelibArchive.Core.Decimal
import Mathlib.Algebra.Group.Int.Defs
import Mathlib.Algebra.Group.Nat.Defs

/-!
# Reading text

Lines, words and numerals as an `istringstream` extracts them in the "C" locale, and the
joined texts they are read back from. What is extracted is always a prefix of what is
left after the white space before it.
-/

namespace Text

/-- `isspace` -/
def isSpace (b : UInt8) : Bool := b == 32 || (9 ≤ b.toNat && b.toNat ≤ 13)

/-- `isdigit` -/
def isDigit (b : UInt8) : Bool := 48 ≤ b.toNat && b.toNat ≤ 57

/-- `getline`: the line, and what is left behind its newline. -/
def getline (s : List UInt8) : List UInt8 × List UInt8 :=
  (s.takeWhile (· ≠ 10), (s.dropWhile (· ≠ 10)).drop 1)

/-- `stream >> token` of a string. -/
def readWord (s : List UInt8) : Option (List UInt8 × List UInt8) :=
  let s := s.dropWhile isSpace
  match s.takeWhile (fun b => !isSpace b) with
  | [] => none
  | b :: w => some (b :: w, s.dropWhile fun b => !isSpace b)

/-- Value of a row of digits. -/
def digitsValue (ds : List UInt8) : Nat := ds.foldl (fun v b => 10 * v + (b.toNat - 48)) 0

/-- A sign, if there is one, and whether it is a minus. -/
def readSign : List UInt8 → Bool × List UInt8
  | 45 :: s => (true, s)
  | 43 :: s => (false, s)
  | s => (false, s)

/-- A numeral behind white space: whether it has a minus, its value, and what is left. -/
def readNumeral (s : List UInt8) : Option (Bool × Nat × List UInt8) :=
  let s := readSign (s.dropWhile isSpace)
  match s.2.takeWhile isDigit with
  | [] => none
  | d :: ds => some (s.1, digitsValue (d :: ds), s.2.dropWhile isDigit)

/-- `stream >> num` of a `size_t`: a minus is taken modulo `2 ^ 64`, what does not fit fails. -/
def readSize (s : List UInt8) : Option (Nat × List UInt8) :=
  match readNumeral s with
  | none => none
  | some (minus, v, rest) =>
    if v < 2 ^ 64 then some (if minus then (2 ^ 64 - v) % 2 ^ 64 else v, rest) else none

/-- `stoi`, which raises for what is no numeral or does not fit. -/
def stoi (s : List UInt8) : Option Int :=
  match readNumeral s with
  | none => none
  | some (minus, v, _) =>
    let i : Int := if minus then -v else v
    if -2 ^ 31 ≤ i ∧ i < 2 ^ 31 then some i else none

/-- `sep.join(words)` -/
def join (sep : List UInt8) : List (List UInt8) → List UInt8
  | [] => []
  | [w] => w
  | w :: ws => w ++ sep ++ join sep ws

/-- `text.split(sep)` at a single byte. -/
def split (sep : UInt8) : List UInt8 → List (List UInt8)
  | [] => [[]]
  | b :: s =>
    if b = sep then [] :: split sep s
    else match split sep s with
      | [] => [[b]]
      | w :: ws => (b :: w) :: ws

/-! ## Words -/

/-- A word ends in front of the first character that is not of it. -/
theorem takeWhile_append_of_stop {p : UInt8 → Bool} {w rest : List UInt8} (hw : ∀ b ∈ w, p b = true)
    (hrest : ∀ b ∈ rest.head?, p b = false) : (w ++ rest).takeWhile p = w := by
  rw [List.takeWhile_append_of_pos hw]
  cases rest with
  | nil => simp
  | cons b rest => simp [hrest b rfl]

/-- The rest is what follows. -/
theorem dropWhile_append_of_stop {p : UInt8 → Bool} {w rest : List UInt8} (hw : ∀ b ∈ w, p b = true)
    (hrest : ∀ b ∈ rest.head?, p b = false) : (w ++ rest).dropWhile p = rest := by
  rw [List.dropWhile_append_of_pos hw]
  cases rest with
  | nil => rfl
  | cons b rest => simp [hrest b rfl]

/-- White space before a word is skipped. -/
theorem readWord_skip {b : UInt8} (hb : isSpace b = true) (s : List UInt8) :
    readWord (b :: s) = readWord s := by
  simp [readWord, hb]

/-- A word is read up to the white space behind it. -/
theorem readWord_append {w rest : List UInt8} (hne : w ≠ []) (hw : ∀ b ∈ w, isSpace b = false)
    (hrest : ∀ b ∈ rest.head?, isSpace b = true) : readWord (w ++ rest) = some (w, rest) := by
  have hdrop : (w ++ rest).dropWhile isSpace = w ++ rest := by
    cases w with
    | nil => exact absurd rfl hne
    | cons b w => simp [hw b List.mem_cons_self]
  have hpos : ∀ b ∈ w, (!isSpace b) = true := fun b hb => by simp [hw b hb]
  have hstop : ∀ b ∈ rest.head?, (!isSpace b) = false := fun b hb => by simp [hrest b hb]
  simp only [readWord, hdrop, takeWhile_append_of_stop hpos hstop,
    dropWhile_append_of_stop hpos hstop]
  cases w with
  | nil => exact absurd rfl hne
  | cons b w => rfl

/-- Reading a word uses up some of the text. -/
theorem length_of_readWord {s w rest : List UInt8} (h : readWord s = some (w, rest)) :
    rest.length < s.length := by
  simp only [readWord] at h
  split at h
  · cases h
  · next b w' hw =>
    cases h
    have hsplit := List.takeWhile_append_dropWhile (p := fun b => !isSpace b)
      (l := s.dropWhile isSpace)
    rw [hw] at hsplit
    have hlen := congrArg List.length hsplit
    have hle := (List.dropWhile_suffix (l := s) isSpace).length_le
    simp only [List.length_append, List.length_cons] at hlen
    omega

/-! ## Numerals -/

/-- A decimal number is digits. -/
theorem isDigit_of_mem_decimal {b : UInt8} {n : Nat} (h : b ∈ decimal n) : isDigit b = true := by
  have hd := digit_of_mem_decimal h
  simp [isDigit, hd]

theorem decimal_ne_nil (n : Nat) : decimal n ≠ [] := by
  simp [decimal, Nat.toDigits_ne_nil]

/-- A numeral has the value it was printed for. -/
theorem digitsValue_decimal (n : Nat) : digitsValue (decimal n) = n := by
  have hfold : ∀ (cs : List Char) (v : Nat), (∀ c ∈ cs, 48 ≤ c.toNat ∧ c.toNat ≤ 57) →
      (cs.map fun c => c.toNat.toUInt8).foldl (fun v b => 10 * v + (b.toNat - 48)) v =
        Nat.ofDigitChars 10 cs v := by
    intro cs
    induction cs with
    | nil => exact fun v _ => Nat.ofDigitChars_nil.symm
    | cons c cs ih =>
      intro v hcs
      have hc := hcs c List.mem_cons_self
      rw [List.map_cons, List.foldl_cons, Nat.ofDigitChars_cons,
        ih _ fun c hc => hcs c (List.mem_cons_of_mem _ hc)]
      rw [UInt8.toNat_ofNat', Nat.mod_eq_of_lt (by omega)]
      rfl
  rw [digitsValue, decimal, hfold _ _ fun c hc => isDigit_of_mem_toDigits hc]
  exact Nat.ofDigitChars_ten_toDigits

theorem isSpace_of_digit {b : UInt8} (h : isDigit b = true) : isSpace b = false := by
  have hne : b ≠ 32 := by
    rintro rfl
    cases h
  simp only [isDigit, Bool.and_eq_true, decide_eq_true_eq] at h
  simp only [isSpace, Bool.or_eq_false_iff, beq_eq_false_iff_ne, Bool.and_eq_false_iff,
    decide_eq_false_iff_not]
  exact ⟨hne, .inr (by omega)⟩

theorem readSign_of_digit {b : UInt8} (h : isDigit b = true) (s : List UInt8) :
    readSign (b :: s) = (false, b :: s) := by
  have h45 : b ≠ 45 := by
    rintro rfl
    cases h
  have h43 : b ≠ 43 := by
    rintro rfl
    cases h
  unfold readSign
  split
  · next heq => exact absurd (List.cons.inj heq).1 h45
  · next heq => exact absurd (List.cons.inj heq).1 h43
  · rfl

/-- White space before a numeral is skipped. -/
theorem readSize_skip {b : UInt8} (hb : isSpace b = true) (s : List UInt8) :
    readSize (b :: s) = readSize s := by
  simp [readSize, readNumeral, hb]

/-- A numeral is read back, whatever follows it that is no digit. -/
theorem readNumeral_decimal_append (n : Nat) {rest : List UInt8}
    (hrest : ∀ b ∈ rest.head?, isDigit b = false) :
    readNumeral (decimal n ++ rest) = some (false, n, rest) := by
  have hdigit : ∀ b ∈ decimal n, isDigit b = true := fun b hb => isDigit_of_mem_decimal hb
  have htake := takeWhile_append_of_stop hdigit hrest
  have hdrop := dropWhile_append_of_stop hdigit hrest
  have hvalue := digitsValue_decimal n
  have hne := decimal_ne_nil n
  generalize decimal n = ds at hdigit htake hdrop hvalue hne
  cases ds with
  | nil => exact absurd rfl hne
  | cons d ds =>
    have hd := hdigit d List.mem_cons_self
    have hspace : ((d :: ds) ++ rest).dropWhile isSpace = (d :: ds) ++ rest := by
      simp [isSpace_of_digit hd]
    have hsign : readSign ((d :: ds) ++ rest) = (false, (d :: ds) ++ rest) :=
      readSign_of_digit hd _
    simp only [readNumeral, hspace, hsign, htake, hdrop, hvalue]

/-- A numeral with a minus in front of it. -/
theorem readNumeral_minus (n : Nat) {rest : List UInt8}
    (hrest : ∀ b ∈ rest.head?, isDigit b = false) :
    readNumeral (45 :: (decimal n ++ rest)) = some (true, n, rest) := by
  have hdigit : ∀ b ∈ decimal n, isDigit b = true := fun b hb => isDigit_of_mem_decimal hb
  have htake := takeWhile_append_of_stop hdigit hrest
  have hdrop := dropWhile_append_of_stop hdigit hrest
  have hspace : (45 :: (decimal n ++ rest)).dropWhile isSpace = 45 :: (decimal n ++ rest) := rfl
  simp only [readNumeral, hspace, readSign, htake, hdrop]
  cases hds : decimal n with
  | nil => exact absurd hds (decimal_ne_nil n)
  | cons d ds => simp only [← hds, digitsValue_decimal]

/-- A decimal number is read back. -/
theorem readNumeral_decimal (n : Nat) : readNumeral (decimal n) = some (false, n, []) := by
  have hread := readNumeral_decimal_append n (show ∀ b ∈ ([] : List UInt8).head?, _ by simp)
  rwa [List.append_nil] at hread

/-- A size is read back from the front of a text. -/
theorem readSize_decimal_append {n : Nat} (hn : n < 2 ^ 64) {rest : List UInt8}
    (hrest : ∀ b ∈ rest.head?, isDigit b = false) :
    readSize (decimal n ++ rest) = some (n, rest) := by
  simp only [readSize, readNumeral_decimal_append n hrest, if_pos hn]
  rfl

/-- `stoi` reads a decimal number below `2 ^ 31`. -/
theorem stoi_decimal {n : Nat} (hn : n < 2 ^ 31) : stoi (decimal n) = some (n : Int) := by
  have hbounds : -2 ^ 31 ≤ (n : Int) ∧ (n : Int) < 2 ^ 31 := by omega
  simp only [stoi, readNumeral_decimal, Bool.false_eq_true, if_false, if_pos hbounds]

/-! ## Joined texts -/

/-- The words, each behind a separator. -/
def behind (sep : UInt8) (ws : List (List UInt8)) : List UInt8 := ws.flatMap (sep :: ·)

theorem join_cons (sep : UInt8) (w : List UInt8) (ws : List (List UInt8)) :
    join [sep] (w :: ws) = w ++ behind sep ws := by
  induction ws generalizing w with
  | nil => simp [join, behind]
  | cons v ws ih => simp [join, behind, ih]

theorem behind_cons (sep : UInt8) (w : List UInt8) (ws : List (List UInt8)) :
    behind sep (w :: ws) = sep :: join [sep] (w :: ws) := by
  rw [join_cons]
  simp [behind]

/-- Behind a word comes a separator or nothing. -/
theorem head_behind {sep b : UInt8} {ws : List (List UInt8)} (h : b ∈ (behind sep ws).head?) :
    b = sep := by
  cases ws with
  | nil => cases h
  | cons w ws => exact (Option.some.inj h).symm

/-- Whatever is in the joined text is a separator or of a word. -/
theorem mem_join {sep b : UInt8} {ws : List (List UInt8)} (h : b ∈ join [sep] ws) :
    b = sep ∨ ∃ w ∈ ws, b ∈ w := by
  cases ws with
  | nil => cases h
  | cons w ws =>
    rw [join_cons, List.mem_append] at h
    obtain h | h := h
    · exact .inr ⟨w, List.mem_cons_self, h⟩
    · obtain ⟨v, hv, hb⟩ := List.mem_flatMap.mp h
      obtain rfl | hb := List.mem_cons.mp hb
      · exact .inl rfl
      · exact .inr ⟨v, List.mem_cons_of_mem _ hv, hb⟩

/-! ## Split texts -/

theorem split_ne_nil (sep : UInt8) (s : List UInt8) : split sep s ≠ [] := by
  cases s with
  | nil => simp [split]
  | cons b s =>
    rw [split]
    split_ifs
    · simp
    · split <;> simp

/-- A word without the separator is one piece. -/
theorem split_of_not_mem {sep : UInt8} {w : List UInt8} (h : sep ∉ w) : split sep w = [w] := by
  induction w with
  | nil => rfl
  | cons b w ih =>
    rw [List.mem_cons, not_or] at h
    rw [split, if_neg (Ne.symm h.1), ih h.2]

/-- The first part ends at the first separator. -/
theorem split_append {sep : UInt8} {w : List UInt8} (h : sep ∉ w) (s : List UInt8) :
    split sep (w ++ sep :: s) = w :: split sep s := by
  induction w with
  | nil => simp [split]
  | cons b w ih =>
    rw [List.mem_cons, not_or] at h
    rw [List.cons_append, split, if_neg (Ne.symm h.1), ih h.2]

/-- A part holds no separator and only what the text holds. -/
theorem of_mem_split {sep : UInt8} {s w : List UInt8} (h : w ∈ split sep s) :
    sep ∉ w ∧ ∀ b ∈ w, b ∈ s := by
  induction s generalizing w with
  | nil =>
    obtain rfl := List.mem_singleton.mp h
    simp
  | cons b s ih =>
    rw [split] at h
    split_ifs at h with hb
    · obtain rfl | h := List.mem_cons.mp h
      · simp
      · exact ⟨(ih h).1, fun c hc => List.mem_cons_of_mem _ ((ih h).2 c hc)⟩
    · split at h
      · next hnil => exact absurd hnil (split_ne_nil sep s)
      · next v vs hcons =>
        obtain rfl | h := List.mem_cons.mp h
        · have hv := ih (w := v) (by rw [hcons]; exact List.mem_cons_self)
          refine ⟨?_, fun c hc => ?_⟩
          · rw [List.mem_cons, not_or]
            exact ⟨Ne.symm hb, hv.1⟩
          · obtain rfl | hc := List.mem_cons.mp hc
            · exact List.mem_cons_self
            · exact List.mem_cons_of_mem _ (hv.2 c hc)
        · have hw := ih (w := w) (by rw [hcons]; exact List.mem_cons_of_mem _ h)
          exact ⟨hw.1, fun c hc => List.mem_cons_of_mem _ (hw.2 c hc)⟩

/-- There is one part more than there are separators. -/
theorem length_split (sep : UInt8) (s : List UInt8) :
    (split sep s).length = s.count sep + 1 := by
  induction s with
  | nil => rfl
  | cons b s ih =>
    rw [split, List.count_cons]
    split_ifs with hb hbeq hbeq
    · simp [ih]
    · simp [hb] at hbeq
    · exact absurd (eq_of_beq hbeq) hb
    · split
      · next hnil => exact absurd hnil (split_ne_nil sep s)
      · next w ws hcons =>
        rw [hcons] at ih
        exact ih

/-! ## UTF-8 -/

/-- What a byte that goes on with a character has to be. -/
inductive Tail where
  | any
  | fromA0
  | upTo9F
  | from90
  | upTo8F

/-- May this byte continue the character? -/
def Tail.admits (t : Tail) (b : UInt8) : Bool :=
  match t with
  | any => 0x80 ≤ b.toNat && b.toNat ≤ 0xBF
  | fromA0 => 0xA0 ≤ b.toNat && b.toNat ≤ 0xBF
  | upTo9F => 0x80 ≤ b.toNat && b.toNat ≤ 0x9F
  | from90 => 0x90 ≤ b.toNat && b.toNat ≤ 0xBF
  | upTo8F => 0x80 ≤ b.toNat && b.toNat ≤ 0x8F

/-- What has to follow the first byte of a character. -/
def lead (b : UInt8) : Option (List Tail) :=
  if b.toNat < 0x80 then some []
  else if b.toNat < 0xC2 then none
  else if b.toNat ≤ 0xDF then some [.any]
  else if b.toNat = 0xE0 then some [.fromA0, .any]
  else if b.toNat = 0xED then some [.upTo9F, .any]
  else if b.toNat ≤ 0xEF then some [.any, .any]
  else if b.toNat = 0xF0 then some [.from90, .any, .any]
  else if b.toNat ≤ 0xF3 then some [.any, .any, .any]
  else if b.toNat = 0xF4 then some [.upTo8F, .any, .any]
  else none

/-- One byte of a text, with what was to follow before it and what is to follow then. -/
def utf8Step : List Tail → UInt8 → Option (List Tail)
  | [], b => lead b
  | t :: ts, b => if t.admits b then some ts else none

/-- The text is well formed UTF-8. -/
def isUtf8 (s : List UInt8) : Bool :=
  match s.foldlM utf8Step [] with
  | some [] => true
  | _ => false

theorem isUtf8_iff (s : List UInt8) : isUtf8 s = true ↔ s.foldlM utf8Step [] = some [] := by
  unfold isUtf8
  split
  · next h => simp [h]
  · next h => exact iff_of_false (by simp) h

theorem Tail.admits_ascii {b : UInt8} (h : b.toNat < 0x80) (t : Tail) : t.admits b = false := by
  cases t <;> simp [admits] <;> omega

/-- An ASCII byte stands between characters. -/
theorem isUtf8_append_ascii {b : UInt8} (hb : b.toNat < 0x80) (w s : List UInt8) :
    isUtf8 (w ++ b :: s) = true ↔ isUtf8 w = true ∧ isUtf8 s = true := by
  simp only [isUtf8_iff, List.foldlM_append, List.foldlM_cons]
  cases hw : w.foldlM utf8Step [] with
  | none => simp
  | some ts =>
    cases ts with
    | nil => simp [utf8Step, lead, hb]
    | cons t ts => simp [utf8Step, t.admits_ascii hb]

/-- ASCII is UTF-8. -/
theorem isUtf8_of_ascii {s : List UInt8} (h : ∀ b ∈ s, b.toNat < 0x80) : isUtf8 s = true := by
  induction s with
  | nil => rfl
  | cons b s ih =>
    have hs := ih fun c hc => h c (List.mem_cons_of_mem _ hc)
    exact (isUtf8_append_ascii (h b List.mem_cons_self) [] s).mpr ⟨rfl, hs⟩

end Text
