import Mathlib.Data.List.Basic
import Mathlib.Data.List.TakeDrop
import Mathlib.Order.Lattice
import Mathlib.Data.Nat.Basic

/-!
# Byte files and buffered streams

A file is a size and a byte for every offset. Bytes past the end are zero by
construction, so a gap left by a seek reads as zeros and two files with the same
contents are equal. A stream adds the position, the open mode and nothing else:
every read and write below names the stream it leaves behind.
-/

/-- A regular file. The last field makes a stray byte past the end unrepresentable. -/
@[ext] structure ByteFile where
  /-- Length in bytes. -/
  size : Nat
  /-- The byte at each offset. -/
  byte : Nat → UInt8
  /-- Nothing is stored past the end. -/
  zero_past : ∀ i, size ≤ i → byte i = 0

namespace ByteFile

/-- The file of length zero. -/
def empty : ByteFile := ⟨0, fun _ => 0, fun _ _ => rfl⟩

/-- The `n` bytes from offset `p`. -/
def read (f : ByteFile) (p n : Nat) : List UInt8 := (List.range n).map fun i => f.byte (p + i)

/-- Overwrite from offset `p`; writing past the end extends the file over a zero gap. -/
def write (f : ByteFile) (p : Nat) (bs : List UInt8) : ByteFile where
  size := if bs.isEmpty then f.size else max f.size (p + bs.length)
  byte i := if p ≤ i then (bs[i - p]?).getD (f.byte i) else f.byte i
  zero_past := by
    intro i hi
    cases bs with
    | nil => simpa using f.zero_past i (by simpa using hi)
    | cons b bs =>
      simp only [List.isEmpty_cons, Bool.false_eq_true, ite_false, List.length_cons] at hi
      have hout : (b :: bs)[i - p]? = none := by
        rw [List.getElem?_eq_none_iff]
        simp only [List.length_cons]
        omega
      rw [hout, Option.getD_none, ite_self]
      exact f.zero_past i (by omega)

@[simp] theorem length_read (f : ByteFile) (p n : Nat) : (f.read p n).length = n := by
  simp [read]

@[simp] theorem read_zero (f : ByteFile) (p : Nat) : f.read p 0 = [] := rfl

theorem getElem_read (f : ByteFile) {p n i : Nat} (hi : i < (f.read p n).length) :
    (f.read p n)[i] = f.byte (p + i) := by
  simp [read]

/-- A byte of a read. -/
theorem byte_of_read {f : ByteFile} {p n i : Nat} {bs : List UInt8} {b : UInt8}
    (h : f.read p n = bs) (hb : bs[i]? = some b) : f.byte (p + i) = b := by
  subst h
  obtain ⟨hi, rfl⟩ := List.getElem?_eq_some_iff.mp hb
  exact (f.getElem_read hi).symm

@[simp] theorem read_one (f : ByteFile) (p : Nat) : f.read p 1 = [f.byte p] := rfl

/-- A read splits at any point. -/
theorem read_add (f : ByteFile) (p m n : Nat) :
    f.read p (m + n) = f.read p m ++ f.read (p + m) n := by
  simp [read, List.range_add, Function.comp_def, Nat.add_assoc]

/-- A shorter read is a prefix of a longer one from the same offset. -/
theorem take_read (f : ByteFile) {p m n : Nat} (h : m ≤ n) :
    (f.read p n).take m = f.read p m := by
  obtain ⟨k, rfl⟩ := Nat.exists_eq_add_of_le h
  rw [read_add, List.take_left' (f.length_read p m)]

/-- Dropping the front of a read moves its offset. -/
theorem drop_read (f : ByteFile) {p m n : Nat} (h : m ≤ n) :
    (f.read p n).drop m = f.read (p + m) (n - m) := by
  obtain ⟨k, rfl⟩ := Nat.exists_eq_add_of_le h
  rw [read_add, List.drop_left' (f.length_read p m), Nat.add_sub_cancel_left]

/-- Reads agree where the bytes do. -/
theorem read_congr {f g : ByteFile} {p n : Nat}
    (h : ∀ i, p ≤ i → i < p + n → f.byte i = g.byte i) : f.read p n = g.read p n := by
  apply List.map_congr_left
  intro i hi
  rw [List.mem_range] at hi
  exact h _ (by omega) (by omega)

theorem size_write (f : ByteFile) (p : Nat) {bs : List UInt8} (h : bs ≠ []) :
    (f.write p bs).size = max f.size (p + bs.length) := by
  cases bs with
  | nil => contradiction
  | cons b bs => rfl

/-- Overwriting inside the file keeps its size. -/
theorem size_write_of_le (f : ByteFile) {p : Nat} {bs : List UInt8}
    (h : p + bs.length ≤ f.size) : (f.write p bs).size = f.size := by
  cases bs with
  | nil => rfl
  | cons b bs => exact max_eq_left h

theorem size_le_size_write (f : ByteFile) (p : Nat) (bs : List UInt8) :
    f.size ≤ (f.write p bs).size := by
  cases bs with
  | nil => exact le_rfl
  | cons b bs => exact le_max_left _ _

@[simp] theorem write_nil (f : ByteFile) (p : Nat) : f.write p [] = f := by
  ext i <;> simp [write]

theorem byte_write_of_lt (f : ByteFile) {p i : Nat} (bs : List UInt8) (h : i < p) :
    (f.write p bs).byte i = f.byte i := if_neg (by omega)

theorem byte_write_of_ge (f : ByteFile) {p i : Nat} {bs : List UInt8} (h : p + bs.length ≤ i) :
    (f.write p bs).byte i = f.byte i := by
  have hout : bs[i - p]? = none := List.getElem?_eq_none_iff.mpr (by omega)
  simp only [write, hout, Option.getD_none, ite_self]

/-- A byte behind the old end of the file comes from the write, or is in a gap. -/
theorem byte_write_of_size_le (f : ByteFile) {p i : Nat} (bs : List UInt8) (hp : p ≤ i)
    (hi : f.size ≤ i) : (f.write p bs).byte i = (bs[i - p]?).getD 0 := by
  simp only [write, if_pos hp, f.zero_past i hi]

/-- Zeros written over zeros. -/
theorem byte_write_zero {f : ByteFile} {i : Nat} (h : f.byte i = 0) (p n : Nat) :
    (f.write p (List.replicate n 0)).byte i = 0 := by
  simp only [write, h]
  split
  · cases hb : (List.replicate n (0 : UInt8))[i - p]? with
    | none => rfl
    | some b => exact List.eq_of_mem_replicate (List.mem_of_getElem? hb)
  · rfl

/-- A range of zero bytes. -/
theorem read_of_zero {f : ByteFile} {p n : Nat} (h : ∀ i, p ≤ i → i < p + n → f.byte i = 0) :
    f.read p n = List.replicate n 0 := by
  rw [List.eq_replicate_iff]
  refine ⟨f.length_read p n, fun b hb => ?_⟩
  obtain ⟨i, hi, rfl⟩ := List.mem_map.mp hb
  rw [List.mem_range] at hi
  exact h _ (by omega) (by omega)

/-- Frame rule: a write does not change a range it does not overlap. -/
theorem read_write_of_disjoint (f : ByteFile) {p n q : Nat} {bs : List UInt8}
    (h : p + n ≤ q ∨ q + bs.length ≤ p) : (f.write q bs).read p n = f.read p n := by
  apply read_congr
  intro i hp hn
  rcases h with h | h
  · exact f.byte_write_of_lt bs (by omega)
  · exact f.byte_write_of_ge (by omega)

/-- A write is read back. -/
theorem read_write_self (f : ByteFile) (p : Nat) (bs : List UInt8) :
    (f.write p bs).read p bs.length = bs := by
  apply List.ext_getElem (by simp)
  intro i hi hb
  rw [getElem_read]
  simp [write, hb]

/-- Any slice of a write is read back at its own offset. -/
theorem read_write_slice (f : ByteFile) (p : Nat) (xs ys zs : List UInt8) :
    (f.write p (xs ++ ys ++ zs)).read (p + xs.length) ys.length = ys := by
  have hall := f.read_write_self p (xs ++ ys ++ zs)
  rw [List.length_append, List.length_append, read_add, read_add] at hall
  have hxy := (List.append_inj hall (by simp)).1
  exact (List.append_inj hxy (by simp)).2

/-- Two writes one behind the other are one write. -/
theorem write_write_append (f : ByteFile) (p : Nat) (xs ys : List UInt8) :
    (f.write p xs).write (p + xs.length) ys = f.write p (xs ++ ys) := by
  ext i
  · cases xs with
    | nil => rfl
    | cons x xs =>
      cases ys with
      | nil => simp
      | cons y ys =>
        simp only [write, List.isEmpty_cons, List.cons_append, Bool.false_eq_true, ite_false,
          List.length_cons, List.length_append]
        omega
  · simp only [write]
    by_cases hp : p ≤ i
    · by_cases hx : i - p < xs.length
      · have hlt : ¬p + xs.length ≤ i := by omega
        simp only [hlt, hp, ite_true, ite_false, List.getElem?_append_left hx]
      · have hge : p + xs.length ≤ i := by omega
        have hnone : xs[i - p]? = none := List.getElem?_eq_none_iff.mpr (by omega)
        simp only [hge, hp, ite_true, hnone, Option.getD_none,
          List.getElem?_append_right (Nat.le_of_not_lt hx), Nat.sub_sub]
    · have hlt : ¬p + xs.length ≤ i := by omega
      simp only [hlt, hp, ite_false]

/-! ## The whole file -/

/-- Every byte of the file. -/
def contents (f : ByteFile) : List UInt8 := f.read 0 f.size

@[simp] theorem length_contents (f : ByteFile) : f.contents.length = f.size :=
  f.length_read 0 f.size

/-- Any slice of the contents is read at its own offset. -/
theorem read_of_contents {f : ByteFile} {xs ys zs : List UInt8}
    (h : f.contents = xs ++ ys ++ zs) : f.read xs.length ys.length = ys := by
  have hsize : f.size = xs.length + ys.length + zs.length := by
    rw [← f.length_contents, h, List.length_append, List.length_append]
  rw [contents, hsize, read_add, read_add, Nat.zero_add] at h
  have hxy := (List.append_inj h (by simp)).1
  exact (List.append_inj hxy (by simp)).2

/-- A write that replaces everything from some offset on. -/
theorem contents_write {f : ByteFile} {xs ys bs : List UInt8} (h : f.contents = xs ++ ys)
    (hlen : ys.length ≤ bs.length) : (f.write xs.length bs).contents = xs ++ bs := by
  have hsize : f.size = xs.length + ys.length := by
    rw [← f.length_contents, h, List.length_append]
  have hslice : f.contents = [] ++ xs ++ ys := h
  have hxs : f.read 0 xs.length = xs := read_of_contents hslice
  cases bs with
  | nil =>
    rw [List.length_nil, Nat.le_zero, List.length_eq_zero_iff] at hlen
    rw [write_nil, h, hlen]
  | cons b bs =>
    have hw := f.size_write xs.length (List.cons_ne_nil b bs)
    rw [max_eq_right (by omega)] at hw
    rw [contents, hw, read_add, Nat.zero_add, read_write_self,
      read_write_of_disjoint _ (.inl (by omega)), hxs]

/-- A write at the end appends. -/
theorem contents_write_size (f : ByteFile) (bs : List UInt8) :
    (f.write f.size bs).contents = f.contents ++ bs := by
  have hend : f.contents = f.contents ++ [] := (List.append_nil f.contents).symm
  rw [← contents_write hend (Nat.zero_le _), length_contents]

end ByteFile

/-- An open stream: contents, file position and whether the open mode permits writing. -/
@[ext] structure FileStream where
  /-- Current contents. -/
  file : ByteFile
  /-- Offset of the next read or write. -/
  pos : Nat
  /-- False for a stream opened read-only. -/
  writable : Bool

namespace FileStream

/-- Absolute seek; a negative target fails and leaves the position alone. -/
def fseeko (s : FileStream) (off : Int) : FileStream :=
  if 0 ≤ off then { s with pos := off.toNat } else s

/-- Seek relative to the current position. -/
def fseekCur (s : FileStream) (d : Int) : FileStream := s.fseeko (s.pos + d)

/-- Seek relative to the end. -/
def fseekEnd (s : FileStream) (d : Int) : FileStream := s.fseeko (s.file.size + d)

/-- Read at most `n` bytes; the stream moves past the bytes actually delivered. -/
def fread (s : FileStream) (n : Nat) : List UInt8 × FileStream :=
  let m := min n (s.file.size - s.pos)
  (s.file.read s.pos m, { s with pos := s.pos + m })

/-- Write where the mode permits it and the system accepts the bytes, else do nothing. -/
def fwrite (s : FileStream) (accepted : Bool) (bs : List UInt8) : FileStream :=
  if s.writable && accepted then
    { s with file := s.file.write s.pos bs, pos := s.pos + bs.length }
  else s

@[simp] theorem fseeko_natCast (s : FileStream) (n : Nat) :
    s.fseeko n = { s with pos := n } := by
  simp [fseeko]

@[simp] theorem fseeko_zero (s : FileStream) : s.fseeko 0 = { s with pos := 0 } := by
  simp [fseeko]

@[simp] theorem file_fseeko (s : FileStream) (off : Int) : (s.fseeko off).file = s.file := by
  unfold fseeko; split <;> rfl

@[simp] theorem writable_fseeko (s : FileStream) (off : Int) :
    (s.fseeko off).writable = s.writable := by
  unfold fseeko; split <;> rfl

@[simp] theorem file_fread (s : FileStream) (n : Nat) : (s.fread n).2.file = s.file := rfl

@[simp] theorem writable_fread (s : FileStream) (n : Nat) :
    (s.fread n).2.writable = s.writable := rfl

/-- A read inside the file delivers every byte asked for. -/
theorem fread_of_le {s : FileStream} {n : Nat} (h : s.pos + n ≤ s.file.size) :
    s.fread n = (s.file.read s.pos n, { s with pos := s.pos + n }) := by
  have hm : min n (s.file.size - s.pos) = n := by omega
  simp only [fread, hm]

/-- Every byte asked for arrives exactly when the range lies inside the file. -/
theorem length_fread_eq_iff {s : FileStream} {n : Nat} (hn : 0 < n) :
    (s.fread n).1.length = n ↔ s.pos + n ≤ s.file.size := by
  simp only [fread, ByteFile.length_read]
  omega

/-- A permitted and accepted write changes the file at the position and moves past it. -/
theorem fwrite_true {s : FileStream} (h : s.writable = true) (bs : List UInt8) :
    s.fwrite true bs =
      { s with file := s.file.write s.pos bs, pos := s.pos + bs.length } := by
  simp [fwrite, h]

/-- A write the system refuses writes nothing. -/
theorem fwrite_eq_true {s : FileStream} (h : s.writable = true) (accepted : Bool)
    (bs : List UInt8) : s.fwrite accepted bs = s.fwrite true (if accepted then bs else []) := by
  cases accepted with
  | true => rfl
  | false => ext <;> simp [fwrite, h]

/-- Two writes in a row are one of what was accepted. -/
theorem fwrite_fwrite {s : FileStream} (h : s.writable = true) (accepted : Bool)
    (xs ys : List UInt8) :
    (s.fwrite true xs).fwrite accepted ys = s.fwrite true (xs ++ if accepted then ys else []) := by
  have hs : (s.fwrite true xs).writable = true := by rw [fwrite_true h]; exact h
  rw [fwrite_eq_true hs, fwrite_true hs, fwrite_true h xs, fwrite_true h (xs ++ _)]
  simp only [ByteFile.write_write_append, List.length_append, Nat.add_assoc]

@[simp] theorem writable_fwrite (s : FileStream) (ok : Bool) (bs : List UInt8) :
    (s.fwrite ok bs).writable = s.writable := by
  unfold fwrite; split <;> rfl

end FileStream
