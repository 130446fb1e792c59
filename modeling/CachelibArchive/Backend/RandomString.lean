import CachelibArchive.Backend.Rows

/-!
# Random records

`randomFastString` takes ten characters from one number as long as ten are missing, and then one
from each. Whatever the numbers are, all characters are among `CHAR_SYMBOLS`, and there are as
many as asked for: a random record is a row of the table.
-/

namespace CachelibArchive.Backend

/-- A generator, as the numbers it has still to give. -/
structure Generator where
  numbers : Nat → UInt32

/-- The next number. -/
def Generator.next (rng : Generator) : UInt32 × Generator :=
  (rng.numbers 0, ⟨fun n => rng.numbers (n + 1)⟩)

/-- `FAST_MASKS` -/
def fastMasks : List Nat := [1, 2, 4, 8, 16, 32, 64, 128, 256, 512]

theorem length_charSymbols_pos : 0 < charSymbols.length := by decide +kernel

/-- `CHAR_SYMBOLS[i % CHAR_SYMBOLS_LENGTH]` -/
def symbol (i : Nat) : UInt8 :=
  charSymbols.get ⟨i % charSymbols.length, Nat.mod_lt i length_charSymbols_pos⟩

/-- Ten characters from one number. -/
def tenSymbols (number : UInt32) : List UInt8 :=
  fastMasks.map fun mask => symbol (number.toNat % 10000 ||| mask)

/-- The first loop, for this many rounds. -/
def fastRounds (rng : Generator) : Nat → List UInt8 × Generator
  | 0 => ([], rng)
  | numRounds + 1 =>
    let (number, rng) := rng.next
    let (rest, rng) := fastRounds rng numRounds
    (tenSymbols number ++ rest, rng)

/-- The second loop, for this many characters. -/
def oneByOne (rng : Generator) : Nat → List UInt8 × Generator
  | 0 => ([], rng)
  | missing + 1 =>
    let (number, rng) := rng.next
    let (rest, rng) := oneByOne rng missing
    (symbol number.toNat :: rest, rng)

/-- `randomFastString` -/
def randomFastString (rng : Generator) (length : Nat) : List UInt8 × Generator :=
  let (front, rng) := fastRounds rng (length / fastMasks.length)
  let (back, rng) := oneByOne rng (length - front.length)
  (front ++ back, rng)

/-- Whatever the generator draws, a symbol comes out. -/
theorem symbol_mem (i : Nat) : symbol i ∈ charSymbols := List.get_mem ..

/-- Every round writes a symbol for each of its masks. -/
theorem length_fastRounds (rng : Generator) (numRounds : Nat) :
    (fastRounds rng numRounds).1.length = numRounds * fastMasks.length := by
  induction numRounds generalizing rng with
  | zero => simp [fastRounds]
  | succ numRounds ih =>
    rw [fastRounds, List.length_append, ih, tenSymbols, List.length_map, Nat.succ_mul, Nat.add_comm]

/-- The loop over the rest writes a symbol each time. -/
theorem length_oneByOne (rng : Generator) (missing : Nat) :
    (oneByOne rng missing).1.length = missing := by
  induction missing generalizing rng with
  | zero => rfl
  | succ missing ih => rw [oneByOne, List.length_cons, ih]

/-- The string has the length asked for. -/
theorem length_randomFastString (rng : Generator) (length : Nat) :
    (randomFastString rng length).1.length = length := by
  have hfront := length_fastRounds rng (length / fastMasks.length)
  have hle : length / fastMasks.length * fastMasks.length ≤ length := Nat.div_mul_le_self ..
  rw [randomFastString, List.length_append, length_oneByOne, hfront]
  omega

/-- Twelve characters: ten from the number 0 and one from each of the numbers 1 and 2. -/
example : (randomFastString ⟨Nat.toUInt32⟩ 12).1 = ascii "1248GW248G12" := by decide +kernel

/-- The rounds write symbols only. -/
theorem mem_fastRounds {rng : Generator} {numRounds : Nat} {c : UInt8}
    (h : c ∈ (fastRounds rng numRounds).1) : c ∈ charSymbols := by
  induction numRounds generalizing rng with
  | zero => cases h
  | succ numRounds ih =>
    rw [fastRounds] at h
    obtain h | h := List.mem_append.mp h
    · obtain ⟨mask, -, rfl⟩ := List.mem_map.mp h
      exact symbol_mem _
    · exact ih h

/-- So does the loop over the rest. -/
theorem mem_oneByOne {rng : Generator} {missing : Nat} {c : UInt8}
    (h : c ∈ (oneByOne rng missing).1) : c ∈ charSymbols := by
  induction missing generalizing rng with
  | zero => cases h
  | succ missing ih =>
    rw [oneByOne] at h
    obtain rfl | h := List.mem_cons.mp h
    · exact symbol_mem _
    · exact ih h

/-- All of the string is symbols. -/
theorem mem_randomFastString {rng : Generator} {length : Nat} {c : UInt8}
    (h : c ∈ (randomFastString rng length).1) : c ∈ charSymbols := by
  rw [randomFastString] at h
  obtain h | h := List.mem_append.mp h
  · exact mem_fastRounds h
  · exact mem_oneByOne h

variable {cfg : Config}

/-- A random string is a C string. -/
theorem zero_not_mem_randomFastString (rng : Generator) (length : Nat) :
    0 ∉ (randomFastString rng length).1 :=
  fun h => zero_not_mem_charSymbols (mem_randomFastString h)

/-- A field. -/
def randomField (cfg : Config) (rng : Generator) : Field cfg × Generator :=
  (⟨(randomFastString rng cfg.maxFieldSize).1, length_randomFastString rng cfg.maxFieldSize,
    zero_not_mem_randomFastString rng cfg.maxFieldSize⟩, (randomFastString rng cfg.maxFieldSize).2)

/-- The loop that fills `values`. -/
def randomFields (cfg : Config) (rng : Generator) : Nat → List (Field cfg) × Generator
  | 0 => ([], rng)
  | maxFields + 1 =>
    let (field, rng) := randomField cfg rng
    let (rest, rng) := randomFields cfg rng maxFields
    (field :: rest, rng)

/-- A row has the number of fields asked for. -/
theorem length_randomFields (rng : Generator) (maxFields : Nat) :
    (randomFields cfg rng maxFields).1.length = maxFields := by
  induction maxFields generalizing rng with
  | zero => rfl
  | succ maxFields ih => rw [randomFields, List.length_cons, ih]

/-- All of its bytes are symbols. -/
theorem plain_randomFields (rng : Generator) (maxFields : Nat) :
    ∀ f ∈ (randomFields cfg rng maxFields).1, ∀ b ∈ f.bytes, b ∈ charSymbols := by
  induction maxFields generalizing rng with
  | zero => exact fun f hf => absurd hf List.not_mem_nil
  | succ maxFields ih =>
    intro f hf b hb
    rw [randomFields] at hf
    obtain rfl | hf := List.mem_cons.mp hf
    · exact mem_randomFastString hb
    · exact ih _ f hf b hb

/-- `values`, as the benchmark fills it. -/
def randomRow (cfg : Config) (rng : Generator) : Row cfg × Generator :=
  (⟨(randomFields cfg rng cfg.maxFields).1, length_randomFields rng cfg.maxFields,
    plain_randomFields rng cfg.maxFields⟩, (randomFields cfg rng cfg.maxFields).2)

end CachelibArchive.Backend
