import Mathlib.Data.List.Basic
import Mathlib.Data.Nat.Digits.Defs

/-!
# Decimal numerals

What `to_string` prints, as bytes. Numerals are injective and hold neither the
underscore nor the blank, so they can be told from the text around them.
-/

/-- `to_string` of a natural number. -/
def decimal (n : Nat) : List UInt8 := (Nat.toDigits 10 n).map fun c => c.toNat.toUInt8

/-- `to_string` of an integer. -/
def decimalInt : Int → List UInt8
  | .ofNat n => decimal n
  | .negSucc n => 45 :: decimal (n + 1)

/-- Every character of a decimal number is a digit. -/
theorem isDigit_of_mem_toDigits {c : Char} {n : Nat} (h : c ∈ Nat.toDigits 10 n) :
    48 ≤ c.toNat ∧ c.toNat ≤ 57 := by
  have hd := Nat.isDigit_of_mem_toDigits (by decide) (by decide) h
  simp only [Char.isDigit, Bool.and_eq_true, decide_eq_true_eq] at hd
  exact ⟨hd.1, hd.2⟩

/-- Every byte of a numeral is the code of a digit. -/
theorem digit_of_mem_decimal {b : UInt8} {n : Nat} (h : b ∈ decimal n) :
    48 ≤ b.toNat ∧ b.toNat ≤ 57 := by
  obtain ⟨c, hc, rfl⟩ := List.mem_map.mp h
  have hd := isDigit_of_mem_toDigits hc
  rw [UInt8.toNat_ofNat']
  omega

/-- Different numbers have different decimals. -/
theorem decimal_injective : Function.Injective decimal := by
  intro m n h
  have hback : ∀ k, (decimal k).map (fun b => Char.ofNat b.toNat) = Nat.toDigits 10 k := by
    intro k
    rw [decimal, List.map_map]
    refine (List.map_congr_left fun c hc => ?_).trans (List.map_id _)
    have hd := isDigit_of_mem_toDigits hc
    show Char.ofNat c.toNat.toUInt8.toNat = c
    rw [UInt8.toNat_ofNat', Nat.mod_eq_of_lt (by omega), Char.ofNat_toNat]
  have hdigits : Nat.toDigits 10 m = Nat.toDigits 10 n := by rw [← hback, h, hback]
  rw [← Nat.ofDigitChars_ten_toDigits (n := m), hdigits, Nat.ofDigitChars_ten_toDigits]

theorem underscore_not_mem_decimal (n : Nat) : (95 : UInt8) ∉ decimal n := fun h =>
  absurd (digit_of_mem_decimal h).2 (by decide)

/-- Nothing below the digits is in a decimal. -/
theorem not_mem_decimal {b : UInt8} (hb : b.toNat < 48) (n : Nat) : b ∉ decimal n := fun h =>
  absurd (digit_of_mem_decimal h).1 (by omega)

theorem blank_not_mem_decimal (n : Nat) : (32 : UInt8) ∉ decimal n :=
  not_mem_decimal (by decide) n

/-- The sign tells the negative numbers from the others. -/
theorem decimalInt_injective : Function.Injective decimalInt := by
  have hsign : ∀ m n, decimal m ≠ 45 :: decimal n := fun m n h =>
    absurd (digit_of_mem_decimal (h ▸ List.mem_cons_self)).1 (by decide)
  intro a b h
  cases a with
  | ofNat m =>
    cases b with
    | ofNat n => exact congrArg Int.ofNat (decimal_injective h)
    | negSucc n => exact absurd h (hsign _ _)
  | negSucc m =>
    cases b with
    | ofNat n => exact absurd h.symm (hsign _ _)
    | negSucc n =>
      have hmn := decimal_injective (List.cons.inj h).2
      exact congrArg Int.negSucc (Nat.succ.inj hmn)

theorem underscore_not_mem_decimalInt (a : Int) : (95 : UInt8) ∉ decimalInt a := by
  cases a with
  | ofNat n => exact underscore_not_mem_decimal n
  | negSucc n => simp [decimalInt, underscore_not_mem_decimal]

/-- A decimal is a C string. -/
theorem zero_not_mem_decimalInt (a : Int) : (0 : UInt8) ∉ decimalInt a := by
  cases a with
  | ofNat n => exact not_mem_decimal (by decide) n
  | negSucc n => simp [decimalInt, not_mem_decimal]

/-- A number below `10 ^ e` has at most `e` digits. -/
theorem length_decimal_le {n e : Nat} (he : 0 < e) (h : n < 10 ^ e) : (decimal n).length ≤ e := by
  rw [decimal, List.length_map]
  exact Nat.toDigits_length 10 n e he h

/-- Every character of a key is a digit or the sign. -/
theorem of_mem_decimalInt {b : UInt8} {i : Int} (h : b ∈ decimalInt i) :
    45 ≤ b.toNat ∧ b.toNat ≤ 57 := by
  cases i with
  | ofNat n =>
    have hd := digit_of_mem_decimal h
    omega
  | negSucc n =>
    rcases List.mem_cons.mp h with rfl | h
    · decide
    · have hd := digit_of_mem_decimal h
      omega

/-- A text is told apart from what follows its last separator. -/
theorem append_separator_inj {α : Type*} {sep : α} {xs ys ds es : List α} (hd : sep ∉ ds)
    (he : sep ∉ es) : xs ++ sep :: ds = ys ++ sep :: es ↔ xs = ys ∧ ds = es := by
  have hnil : ∀ {c ds es : List α}, sep ∉ ds → sep :: ds = c ++ sep :: es → c = [] ∧ ds = es := by
    intro c ds es hd h
    cases c with
    | nil => exact ⟨rfl, (List.cons.inj h).2⟩
    | cons x c =>
      rw [List.cons_append] at h
      exact absurd ((List.cons.inj h).2 ▸ by simp) hd
  constructor
  · intro h
    obtain ⟨c, rfl, hc⟩ | ⟨c, rfl, hc⟩ := List.append_eq_append_iff.mp h
    · obtain ⟨rfl, rfl⟩ := hnil hd hc
      exact ⟨(List.append_nil _).symm, rfl⟩
    · obtain ⟨rfl, rfl⟩ := hnil he hc
      exact ⟨List.append_nil _, rfl⟩
  · rintro ⟨rfl, rfl⟩
    rfl

/-- A text without separators is told apart from what follows the first one. -/
theorem separator_append_inj {α : Type*} {sep : α} {xs ys ds es : List α} (hx : sep ∉ xs)
    (hy : sep ∉ ys) : xs ++ sep :: ds = ys ++ sep :: es ↔ xs = ys ∧ ds = es := by
  constructor
  · intro h
    have hrev := congrArg List.reverse h
    simp only [List.reverse_append, List.reverse_cons, List.append_assoc, List.singleton_append]
      at hrev
    obtain ⟨hde, hxy⟩ := (append_separator_inj (by simpa using hx) (by simpa using hy)).mp hrev
    exact ⟨List.reverse_injective hxy, List.reverse_injective hde⟩
  · rintro ⟨rfl, rfl⟩
    rfl
