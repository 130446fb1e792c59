import CachelibArchive.Core.Text
import CachelibArchive.Tmdb.Room

/-!
# The self tests

The programs of `tmdb_test.cpp` that insert numbered records, close the database
and read them back, in order or at random. They differ in the length of the values and
in how many reads they make; what the generator draws is an argument.
-/

namespace CachelibArchive.Tmdb

/-- Ways a test program ends early: below the store, or by an exception nobody catches. -/
inductive Abort
  | fault (fault : Fault)
  | nullString
  | outOfRange
  deriving DecidableEq

/-! ## The programs -/

/-- `"num_" + std::to_string(i)`. -/
def testKey (i : Nat) : CString where
  bytes := [110, 117, 109, 95] ++ decimal i
  nul_free := by simp [not_mem_decimal]

/-- `string(size, char('A' + i % 26))`. -/
def testValue (size i : Nat) : CString where
  bytes := List.replicate size (65 + i % 26).toUInt8
  nul_free h := by
    have heq := congrArg UInt8.toNat (List.eq_of_mem_replicate h)
    rw [UInt8.toNat_ofNat'] at heq
    simp only [UInt8.reduceToNat] at heq
    omega

theorem testKey_pos (i : Nat) : 0 < (testKey i).length := by
  simp [CString.length, testKey]

theorem testKey_short {i : Nat} (hi : i < 2 ^ 31) : (testKey i).length < tdbMaxKeyLen := by
  have hlen := length_decimal_le (n := i) (e := 10) (by decide) (by omega)
  simp only [CString.length, testKey, List.length_append, List.length_cons, List.length_nil,
    tdbMaxKeyLen]
  omega

theorem testKey_trimmed (i : Nat) : ∀ c ∈ (testKey i).bytes.getLast?, isspace c = false := by
  intro c hc
  have hlast : (testKey i).bytes.getLast? = (decimal i).getLast? :=
    List.getLast?_append_of_ne_nil _ (Text.decimal_ne_nil i)
  rw [hlast] at hc
  have hd := digit_of_mem_decimal (List.mem_of_getLast? hc)
  simp only [isspace, Bool.or_eq_false_iff, Bool.and_eq_false_iff, decide_eq_false_iff_not,
    UInt8.le_iff_toNat_le, ← UInt8.toNat_inj]
  exact ⟨by simp; omega, .inr (by simp; omega)⟩

/-- The keys of the tests are keys of the store. -/
def numKey (i : Nat) (hi : i < 2 ^ 31) : Key :=
  ⟨testKey i, testKey_pos i, testKey_short hi, testKey_trimmed i⟩

theorem numKey_inj {i j : Nat} (hi : i < 2 ^ 31) (hj : j < 2 ^ 31)
    (h : numKey i hi = numKey j hj) : i = j := by
  have hbytes : (testKey i).bytes = (testKey j).bytes := congrArg (fun k => k.str.bytes) h
  exact decimal_injective (List.append_cancel_left hbytes)

/-- The values of the tests are values of the store. -/
def numValue {size : Nat} (hsize : size < tdbMaxRecordLen) (i : Nat) : Value where
  str := testValue size i
  short := by simpa [CString.length, testValue] using hsize

section tests

variable {size : Nat} {hsize : size < tdbMaxRecordLen} {m : Key → Option Value} {db : TDB} {n : Nat}

/-- The records below the index are there, the others are not. -/
def Numbered (hsize : size < tdbMaxRecordLen) (i : Nat) (m : Key → Option Value) : Prop :=
  ∀ j (hj : j < 2 ^ 31), m (numKey j hj) = if j < i then some (numValue hsize j) else none

theorem Numbered.insert {i : Nat} (h : Numbered hsize i m) (hi : i < 2 ^ 31) :
    Numbered hsize (i + 1) (insertNew m (numKey i hi) (numValue hsize i)) := by
  intro j hj
  have hnone : m (numKey i hi) = none := by rw [h i hi, if_neg (Nat.lt_irrefl i)]
  rw [insertNew_of_none hnone]
  by_cases hji : j = i
  · subst hji
    rw [Function.update_self, if_pos (Nat.lt_succ_self j)]
  · have hkey : numKey j hj ≠ numKey i hi := fun heq => hji (numKey_inj hj hi heq)
    have hlt : j < i + 1 ↔ j < i := by omega
    simp only [Function.update_of_ne hkey, h j hj, hlt]

end tests

end CachelibArchive.Tmdb
