import Mathlib.Algebra.Order.Group.Int
import Mathlib.Data.List.DropRight
import Mathlib.Tactic.SplitIfs

/-!
# Binary files and text in Python

A file opened with `'rb'` is its bytes and a position. A `str` is a list of characters, which
`decode` reads from bytes and `strip` frees of the white space at both ends. A newline is one
byte, and a byte of no other character.
-/

namespace Python

/-- The exceptions raised here, other than that of a missing file. -/
inductive Raised where
  | osError
  | unicodeDecodeError
  deriving DecidableEq

/-- What the offset of a `seek` is added to. -/
inductive Whence where
  | start
  | current
  | fileEnd

/-- A file opened with `'rb'`. -/
structure BinaryFile where
  content : List UInt8
  pos : Nat

namespace BinaryFile

/-- `open(file_name, 'rb')` of an existing file. -/
def openFile (content : List UInt8) : BinaryFile := ⟨content, 0⟩

/-- What `whence` stands for. -/
def base (file : BinaryFile) : Whence → Nat
  | .start => 0
  | .current => file.pos
  | .fileEnd => file.content.length

/-- `file.seek(offset, whence)`; a negative position raises. -/
def seek (file : BinaryFile) (offset : Int) (whence : Whence) : Except Raised BinaryFile :=
  let pos := file.base whence + offset
  if 0 ≤ pos then .ok { file with pos := pos.toNat } else .error .osError

/-- `file.read(n)`: fewer bytes at the end of the file. -/
def read (file : BinaryFile) (n : Nat) : List UInt8 × BinaryFile :=
  let bytes := (file.content.drop file.pos).take n
  (bytes, { file with pos := file.pos + bytes.length })

/-- `file.readline()`: up to the next newline, which is part of the line. -/
def readline (file : BinaryFile) : List UInt8 × BinaryFile :=
  let rest := file.content.drop file.pos
  let line := rest.takeWhile (· ≠ 10) ++ (rest.dropWhile (· ≠ 10)).take 1
  (line, { file with pos := file.pos + line.length })

variable {content : List UInt8} {pos : Nat}

theorem read_one {b : UInt8} (h : content[pos]? = some b) :
    read ⟨content, pos⟩ 1 = ([b], ⟨content, pos + 1⟩) := by
  have htake : (content.drop pos).take 1 = [b] := by
    rw [List.take_one, List.head?_drop, h]
    rfl
  simp only [read, htake, List.length_singleton]

/-- Reading one byte moves by one at most. -/
theorem pos_read_le (file : BinaryFile) (n : Nat) : (file.read n).2.pos ≤ file.pos + n :=
  Nat.add_le_add_left (List.length_take_le ..) _

theorem seek_ok {file : BinaryFile} {offset : Int} {whence : Whence}
    (h : file.base whence + offset = pos) :
    file.seek offset whence = .ok { file with pos := pos } := by
  simp only [seek, h]
  rw [if_pos (Int.natCast_nonneg pos), Int.toNat_natCast]

theorem seek_error {file : BinaryFile} {offset : Int} {whence : Whence}
    (h : file.base whence + offset < 0) : file.seek offset whence = .error .osError := by
  simp only [seek]
  rw [if_neg (Int.not_le.mpr h)]

theorem pos_of_seek {file file' : BinaryFile} {offset : Int} {whence : Whence}
    (h : file.seek offset whence = .ok file') : (file'.pos : Int) = file.base whence + offset := by
  simp only [seek] at h
  split_ifs at h with hpos
  cases h
  exact Int.toNat_of_nonneg hpos

/-- A line that ends with a newline. -/
theorem readline_append (before after : List UInt8) {line : List UInt8} (h : 10 ∉ line) :
    (readline ⟨before ++ line ++ 10 :: after, before.length⟩).1 = line ++ [10] := by
  have hrest : (before ++ line ++ 10 :: after).drop before.length = line ++ 10 :: after := by
    rw [List.append_assoc, List.drop_left]
  have hline : ∀ b ∈ line, decide (b ≠ 10) = true := fun b hb =>
    decide_eq_true fun heq => h (heq ▸ hb)
  simp only [readline, hrest, List.takeWhile_append_of_pos hline,
    List.dropWhile_append_of_pos hline]
  simp

end BinaryFile

/-! ## Text -/

/-- `text.encode()` -/
def encode (text : List Char) : List UInt8 := text.flatMap String.utf8EncodeChar

/-- `bytes.decode()` -/
def decode (bytes : List UInt8) : Except Raised (List Char) :=
  match bytes.toByteArray.utf8Decode? with
  | some text => .ok text.toList
  | none => .error .unicodeDecodeError

/-- `str.isspace` of one character. -/
def isSpace (c : Char) : Bool :=
  let n := c.toNat
  9 ≤ n && n ≤ 13 || 28 ≤ n && n ≤ 32 || n == 0x85 || n == 0xA0 || n == 0x1680 ||
    0x2000 ≤ n && n ≤ 0x200A || n == 0x2028 || n == 0x2029 || n == 0x202F || n == 0x205F ||
    n == 0x3000

/-- `text.strip()` -/
def strip (text : List Char) : List Char := (text.dropWhile isSpace).rdropWhile isSpace

@[simp] theorem encode_append (s t : List Char) : encode (s ++ t) = encode s ++ encode t :=
  List.flatMap_append

theorem decode_encode (text : List Char) : decode (encode text) = .ok text := by
  have hdecode : (encode text).toByteArray.utf8Decode? = some text.toArray :=
    List.utf8Decode?_utf8Encode
  rw [decode, hdecode]

/-- White space at the end makes no difference. -/
theorem strip_concat {c : Char} (hc : isSpace c = true) (text : List Char) :
    strip (text ++ [c]) = strip text := by
  rw [strip, strip, List.dropWhile_append]
  split
  · next hempty =>
    rw [List.isEmpty_iff.mp hempty, List.dropWhile_cons_of_pos hc]
    rfl
  · exact List.rdropWhile_concat_pos isSpace _ c hc

theorem eq_newline_of_mem {c : Char} (hmem : 10 ∈ String.utf8EncodeChar c) : c = '\n' := by
  have hbyte : ∀ n : Nat, (10 : UInt8) = UInt8.ofNat n → n % 256 = 10 := by
    intro n hn
    have hnat := congrArg UInt8.toNat hn
    rw [UInt8.toNat_ofNat'] at hnat
    exact hnat.symm
  have hval : c.val.toNat = 10 := by
    simp only [String.utf8EncodeChar] at hmem
    split_ifs at hmem <;> simp only [List.mem_cons, List.not_mem_nil, or_false] at hmem
    · have hone := hbyte _ hmem
      omega
    -- the bytes of a longer character have their high bit set
    · rcases hmem with h | h <;> have hbyte := hbyte _ h <;> omega
    · rcases hmem with h | h | h <;> have hbyte := hbyte _ h <;> omega
    · rcases hmem with h | h | h | h <;> have hbyte := hbyte _ h <;> omega
  exact Char.ext (UInt32.toNat_inj.mp hval)

/-- The byte of a newline belongs to a newline. -/
theorem newline_mem_encode {text : List Char} : 10 ∈ encode text ↔ '\n' ∈ text := by
  rw [encode, List.mem_flatMap]
  constructor
  · rintro ⟨c, hc, hmem⟩
    exact eq_newline_of_mem hmem ▸ hc
  · exact fun h => ⟨'\n', h, by decide⟩

end Python
