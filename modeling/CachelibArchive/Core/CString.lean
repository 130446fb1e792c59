import Mathlib.Data.List.Basic
import Mathlib.Data.List.DropRight
import Mathlib.Order.Lattice

/-!
# Terminated strings and character buffers

A C string carries the proof that it holds no terminator, so the length a copy
sees is the length of the list. A character buffer is an addressable block of
bytes: copies write at an offset, and reading a string from an offset stops at
the first terminator within the given capacity.
-/

/-- The bytes of a terminated string, terminator excluded. -/
structure CString where
  /-- The characters. -/
  bytes : List UInt8
  /-- No character is the terminator. -/
  nul_free : (0 : UInt8) ∉ bytes
  deriving DecidableEq

namespace CString

/-- The string a C function sees in a byte string: everything before the first terminator. -/
def ofBytes (s : List UInt8) : CString where
  bytes := s.takeWhile (· ≠ 0)
  nul_free := by
    intro h
    have hp := List.mem_takeWhile_imp h
    simp at hp

/-- Length as `strlen` reports it. -/
def length (s : CString) : Nat := s.bytes.length

@[ext] theorem ext {s t : CString} (h : s.bytes = t.bytes) : s = t := by
  cases s; cases t; cases h; rfl

/-- A byte string without a terminator is seen whole. -/
theorem ofBytes_of_nul_free {s : List UInt8} (h : (0 : UInt8) ∉ s) : (ofBytes s).bytes = s := by
  apply List.takeWhile_eq_self_iff.mpr
  intro b hb
  have hne : b ≠ 0 := by rintro rfl; exact h hb
  simpa using hne

@[simp] theorem ofBytes_bytes (s : CString) : ofBytes s.bytes = s :=
  ext (ofBytes_of_nul_free s.nul_free)

/-- Nothing after a terminator is seen. -/
theorem ofBytes_append_nul {s t : List UInt8} (h : (0 : UInt8) ∉ s) :
    (ofBytes (s ++ 0 :: t)).bytes = s := by
  have hs := ofBytes_of_nul_free h
  simp only [ofBytes] at hs ⊢
  rw [List.takeWhile_append, hs]
  simp

/-- What is seen behind characters that are not terminators. -/
theorem ofBytes_append {s : List UInt8} (h : (0 : UInt8) ∉ s) (t : List UInt8) :
    (ofBytes (s ++ t)).bytes = s ++ (ofBytes t).bytes := by
  have hs := ofBytes_of_nul_free h
  simp only [ofBytes] at hs ⊢
  rw [List.takeWhile_append, hs, if_pos rfl]

/-- The empty string. -/
def empty : CString := ⟨[], List.not_mem_nil⟩

@[simp] theorem empty_bytes : empty.bytes = [] := rfl

/-- The first `n` characters. -/
def take (s : CString) (n : Nat) : CString :=
  ⟨s.bytes.take n, fun h => s.nul_free (List.mem_of_mem_take h)⟩

@[simp] theorem take_bytes (s : CString) (n : Nat) : (s.take n).bytes = s.bytes.take n := rfl

theorem take_of_length_le {s : CString} {n : Nat} (h : s.length ≤ n) : s.take n = s :=
  ext (List.take_of_length_le h)

@[simp] theorem empty_take (n : Nat) : empty.take n = empty := ext (by simp)

end CString

/-- A character buffer, addressed from its first byte. -/
abbrev CharBuffer := Nat → UInt8

namespace CharBuffer

/-- Every byte zero. -/
def zero : CharBuffer := fun _ => 0

/-- Set `n` bytes from `off` to zero. -/
def clear (b : CharBuffer) (off n : Nat) : CharBuffer := fun i =>
  if off ≤ i ∧ i < off + n then 0 else b i

/-- Copy `s` to `off`, leaving the rest alone. -/
def memcpy (b : CharBuffer) (off : Nat) (s : List UInt8) : CharBuffer := fun i =>
  if off ≤ i then (s[i - off]?).getD (b i) else b i

/-- Copy a string and its terminator to `off`, leaving the rest alone. -/
def strcpy (b : CharBuffer) (off : Nat) (s : CString) : CharBuffer := b.memcpy off (s.bytes ++ [0])

/-- The bytes from offset `i` up to a terminator, at most `n` of them. -/
def scan (b : CharBuffer) : Nat → Nat → List UInt8
  | 0, _ => []
  | n + 1, i => if b i = 0 then [] else b i :: scan b n (i + 1)

theorem scan_nul_free (b : CharBuffer) (n i : Nat) : (0 : UInt8) ∉ b.scan n i := by
  induction n generalizing i with
  | zero => simp [scan]
  | succ n ih =>
    unfold scan
    split
    · simp
    · simp only [List.mem_cons, not_or]
      exact ⟨Ne.symm (by assumption), ih _⟩

/-- The string stored at `off` in an array of capacity `n`. -/
def cstr (b : CharBuffer) (off n : Nat) : CString := ⟨b.scan n off, b.scan_nul_free n off⟩

theorem length_scan_le (b : CharBuffer) (n i : Nat) : (b.scan n i).length ≤ n := by
  induction n generalizing i with
  | zero => simp [scan]
  | succ n ih =>
    unfold scan
    split
    · simp
    · simpa using ih (i + 1)

/-- A string read from an array fits the array. -/
theorem length_cstr_le (b : CharBuffer) (off n : Nat) : (b.cstr off n).length ≤ n :=
  b.length_scan_le n off

/-- A scan over stored characters returns as many of them as it may read. -/
theorem scan_eq_take {b : CharBuffer} {s : List UInt8} (hs : (0 : UInt8) ∉ s) :
    ∀ {n i : Nat}, (∀ j (h : j < s.length), j < n → b (i + j) = s[j]) →
      (s.length < n → b (i + s.length) = 0) → b.scan n i = s.take n := by
  induction s with
  | nil =>
    intro n i _ hz
    cases n with
    | zero => rfl
    | succ n =>
      have h0 : b i = 0 := by simpa using hz
      simp [scan, h0]
  | cons c s ih =>
    intro n i hc hz
    cases n with
    | zero => rfl
    | succ n =>
      have h0 : b i = c := hc 0 (by simp) (by omega)
      have hne : c ≠ 0 := by rintro rfl; simp at hs
      have hrest : b.scan n (i + 1) = s.take n := by
        apply ih (fun h => hs (List.mem_cons_of_mem c h))
        · intro j hj hn
          have hj' := hc (j + 1) (by simpa using hj) (by omega)
          simpa [Nat.add_assoc, Nat.add_comm 1] using hj'
        · intro hn
          have hz' := hz (by simpa using hn)
          simpa [Nat.add_assoc, Nat.add_comm 1] using hz'
      simp [scan, h0, hne, hrest]

/-- The string `s` and its terminator are stored at `off`. -/
def HoldsAt (b : CharBuffer) (off : Nat) (s : CString) : Prop :=
  (∀ j (h : j < s.bytes.length), b (off + j) = s.bytes[j]) ∧ b (off + s.length) = 0

/-- A stored string is read back, up to the capacity. -/
theorem HoldsAt.cstr {b : CharBuffer} {off : Nat} {s : CString} (h : b.HoldsAt off s) (n : Nat) :
    b.cstr off n = s.take n :=
  CString.ext (scan_eq_take s.nul_free (fun j hj _ => h.1 j hj) fun _ => h.2)

theorem holdsAt_strcpy (b : CharBuffer) (off : Nat) (s : CString) :
    (b.strcpy off s).HoldsAt off s := by
  constructor
  · intro j hj
    simp [strcpy, memcpy, List.getElem?_append, hj]
  · simp [strcpy, memcpy, CString.length]

/-- A copy behind the terminator does not touch a stored string. -/
theorem HoldsAt.memcpy {b : CharBuffer} {off off' : Nat} {s : CString} (h : b.HoldsAt off s)
    (hlt : off + s.length < off') (t : List UInt8) : (b.memcpy off' t).HoldsAt off s := by
  constructor
  · intro j hj
    have hj' : ¬ off' ≤ off + j := by simp only [CString.length] at hlt; omega
    simp only [CharBuffer.memcpy, if_neg hj', h.1 j hj]
  · simp only [CharBuffer.memcpy, if_neg (Nat.not_le.mpr hlt), h.2]

theorem HoldsAt.strcpy {b : CharBuffer} {off off' : Nat} {s : CString} (h : b.HoldsAt off s)
    (hlt : off + s.length < off') (t : CString) : (b.strcpy off' t).HoldsAt off s :=
  h.memcpy hlt _

/-- A terminated copy is read back, whatever the buffer held before. -/
theorem cstr_strcpy (b : CharBuffer) (off n : Nat) (s : CString) :
    (b.strcpy off s).cstr off n = s.take n :=
  (holdsAt_strcpy b off s).cstr n

/-- `n` zero bytes at `off`. -/
def ZeroAt (b : CharBuffer) (off n : Nat) : Prop := ∀ i, off ≤ i → i < off + n → b i = 0

theorem zeroAt_clear (b : CharBuffer) (off n : Nat) : (b.clear off n).ZeroAt off n :=
  fun _ h h' => if_pos ⟨h, h'⟩

/-- A terminated copy in front of zero bytes leaves them zero. -/
theorem ZeroAt.strcpy {b : CharBuffer} {off off' n : Nat} {s : CString} (h : b.ZeroAt off n)
    (hlt : off' + s.length < off) : (b.strcpy off' s).ZeroAt off n := by
  intro i hi hn
  have hlen : (s.bytes ++ [0]).length ≤ i - off' := by
    simp only [CString.length] at hlt
    simp only [List.length_append, List.length_singleton]
    omega
  simp [CharBuffer.strcpy, memcpy, List.getElem?_eq_none hlen, h i hi hn]

/-- An unterminated copy onto zero bytes is read back, up to the capacity. -/
theorem ZeroAt.cstr_memcpy {b : CharBuffer} {off n : Nat} (h : b.ZeroAt off n) (s : CString) :
    (b.memcpy off s.bytes).cstr off n = s.take n := by
  apply CString.ext
  apply scan_eq_take s.nul_free
  · intro j hj _
    simp [memcpy, hj]
  · intro hn
    have hz : b (off + s.bytes.length) = 0 := h _ (by omega) (by omega)
    simp [memcpy, hz]

/-- Zero bytes read as the empty string. -/
theorem ZeroAt.cstr {b : CharBuffer} {off n : Nat} (h : b.ZeroAt off n) :
    b.cstr off n = .empty := by
  have hb : b.memcpy off [] = b := by
    funext i
    simp [memcpy]
  simpa [hb] using h.cstr_memcpy .empty

end CharBuffer
