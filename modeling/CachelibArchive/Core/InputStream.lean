import Mathlib.Data.List.TakeWhile

/-!
# Input streams

A stream read line by line, with the state a read at the end leaves. A line that
ends with the text is read like any other, and after it nothing is: a read on a
stream in that state fails and leaves the string of the caller as it is.
-/

/-- What is left of a text, and whether a read has met its end. -/
structure InputStream where
  rest : List UInt8
  good : Bool

namespace InputStream

/-- A stream that is just opened. -/
def ofBytes (text : List UInt8) : InputStream := ⟨text, true⟩

/-- `getline(stream, line)`: whether it succeeded, the string it leaves, and the stream. -/
def getline (line : List UInt8) (s : InputStream) : Bool × List UInt8 × InputStream :=
  if s.good then
    match s.rest.dropWhile (· ≠ 10) with
    | [] => (!s.rest.isEmpty, s.rest, ⟨[], false⟩)
    | _ :: rest => (true, s.rest.takeWhile (· ≠ 10), ⟨rest, true⟩)
  else (false, line, s)

/-- What reading lines uses up. -/
def size (s : InputStream) : Nat := s.rest.length + if s.good then 1 else 0

theorem getline_not_good {s : InputStream} (h : s.good = false) (line : List UInt8) :
    s.getline line = (false, line, s) := by
  rw [getline, if_neg (by rw [h]; exact Bool.false_ne_true)]

/-- A line with its newline. -/
theorem getline_newline {text : List UInt8} (h : 10 ∉ text) (rest line : List UInt8) :
    (ofBytes (text ++ 10 :: rest)).getline line = (true, text, ofBytes rest) := by
  have hall : ∀ b ∈ text, decide (b ≠ 10) = true := fun b hb =>
    decide_eq_true fun heq => h (heq ▸ hb)
  rw [getline, ofBytes, if_pos rfl, List.dropWhile_append_of_pos hall,
    List.takeWhile_append_of_pos hall]
  simp [ofBytes]

/-- The last line, without one. -/
theorem getline_last {text : List UInt8} (h : 10 ∉ text) (line : List UInt8) :
    (ofBytes text).getline line = (!text.isEmpty, text, ⟨[], false⟩) := by
  have hall : ∀ b ∈ text, decide (b ≠ 10) = true := fun b hb =>
    decide_eq_true fun heq => h (heq ▸ hb)
  rw [getline, ofBytes, if_pos rfl, List.dropWhile_eq_nil_iff.mpr hall]

/-- On a good stream the string of the caller does not matter. -/
theorem getline_good {s : InputStream} (h : s.good = true) (line line' : List UInt8) :
    s.getline line = s.getline line' := by
  rw [getline, getline, if_pos h, if_pos h]

/-- The line read and what is left make up a good stream. -/
theorem length_getline {s : InputStream} (h : s.good = true) (line : List UInt8) :
    (s.getline line).2.1.length + (s.getline line).2.2.size + 1 = s.size := by
  rw [getline, if_pos h]
  split
  · simp [size, h]
  · next b rest heq =>
    have hsplit := congrArg List.length
      (List.takeWhile_append_dropWhile (p := (· ≠ 10)) (l := s.rest))
    rw [heq, List.length_append, List.length_cons] at hsplit
    simp only [size, h, ite_true]
    omega

/-- A read never adds to the stream. -/
theorem size_getline_le (s : InputStream) (line : List UInt8) :
    (s.getline line).2.2.size ≤ s.size := by
  rw [getline]
  split
  · have hlen := (List.dropWhile_sublist (l := s.rest) (· ≠ 10)).length_le
    split
    · simp [size]
    · next heq =>
      rw [heq, List.length_cons] at hlen
      simp only [size, ite_true]
      split <;> omega
  · exact Nat.le_refl _

/-- A read that succeeds takes something off the stream. -/
theorem size_getline_lt (s : InputStream) (line : List UInt8) (h : (s.getline line).1 = true) :
    (s.getline line).2.2.size < s.size := by
  rw [getline] at h ⊢
  split
  · next hgood =>
    have hlen := (List.dropWhile_sublist (l := s.rest) (· ≠ 10)).length_le
    rw [if_pos hgood] at h
    split
    · simp [size, hgood]
    · next heq =>
      rw [heq, List.length_cons] at hlen
      simp only [size, hgood, ite_true]
      omega
  · next hgood =>
    rw [if_neg hgood] at h
    cases h

end InputStream
