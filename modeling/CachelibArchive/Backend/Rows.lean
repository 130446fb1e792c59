import CachelibArchive.Backend.Record
import CachelibArchive.Core.Text

/-!
# Rows

A row has one field for every column. The workload fills them with symbols of one alphabet; the
table takes any text without NUL.
-/

namespace CachelibArchive.Backend

open Text

/-- The bytes of a literal. -/
def ascii (s : String) : List UInt8 := s.toList.map fun c => c.toNat.toUInt8

/-- `CHAR_SYMBOLS`, what `randomFastString` fills the fields with. -/
def charSymbols : List UInt8 :=
  ascii "0123456789ABCDEFGHIJKLMNOPQRSTUVWXYZabcdefghijklmnopqrstuvwxyz"

/-- No symbol is a NUL. -/
theorem zero_not_mem_charSymbols : (0 : UInt8) ∉ charSymbols := by decide +kernel

/-- Every symbol is a character of its own. -/
theorem charSymbols_ascii : ∀ b ∈ charSymbols, b.toNat < 0x80 := by decide +kernel

/-- A row as the workload inserts it. -/
structure Row (cfg : Config) where
  fields : List (Field cfg)
  full : fields.length = cfg.maxFields
  plain : ∀ f ∈ fields, ∀ b ∈ f.bytes, b ∈ charSymbols

/-- The strings of a row. -/
def Row.values {cfg : Config} (row : Row cfg) : List (List UInt8) := strings row.fields

/-- A row of the table: `MAX_FIELDS` fields, none of them null and none with a NUL. -/
structure TableRow (cfg : Config) where
  fields : List (List UInt8)
  count : fields.length = cfg.maxFields
  text : ∀ f ∈ fields, (0 : UInt8) ∉ f

/-- A row whose fields are UTF-8, as the strings of a BSON document are. -/
structure TextRow (cfg : Config) extends TableRow cfg where
  utf8 : ∀ f ∈ fields, isUtf8 f = true

variable {cfg : Config}

theorem TableRow.fields_injective :
    Function.Injective (TableRow.fields : TableRow cfg → List (List UInt8)) := by
  rintro ⟨fields, _, _⟩ ⟨fields', _, _⟩ rfl
  rfl

theorem TextRow.fields_injective :
    Function.Injective fun row : TextRow cfg => row.fields := by
  rintro ⟨row, _⟩ ⟨row', _⟩ h
  obtain rfl := TableRow.fields_injective h
  rfl

/-- A packed row holds no NUL. -/
theorem TableRow.zero_not_mem (row : TableRow cfg) : (0 : UInt8) ∉ packValues row.fields := by
  rw [packValues_eq_flatten]
  intro h
  obtain ⟨f, hf, hmem⟩ := List.mem_flatten.mp h
  exact row.text f hf hmem

/-- A row of the workload in the table. -/
def Row.stored (row : Row cfg) : TextRow cfg where
  fields := row.values
  count := (List.length_map ..).trans row.full
  text f hf := by
    obtain ⟨field, -, rfl⟩ := List.mem_map.mp hf
    exact field.text
  utf8 f hf := by
    obtain ⟨field, hfield, rfl⟩ := List.mem_map.mp hf
    exact isUtf8_of_ascii fun b hb => charSymbols_ascii b (row.plain field hfield b hb)

end CachelibArchive.Backend
