import CachelibArchive.Backend.Document
import CachelibArchive.Core.CString

/-!
# Rows, and the texts they are cached under

MySQL and SQLite cache a packed row under the text of the query that finds it,
MongoDB a document under the filter that finds it, both written as JSON.
-/

namespace CachelibArchive.Backend

/-- What the three backends do differently, on rows of some kind. -/
structure Flavour (R : Type) where
  /-- Rows from this key on are deleted by `clean_up`. -/
  maxRecords : Nat
  /-- The results of a read that finds the row. -/
  values : Int → R → List (List UInt8)
  /-- The text a row is cached under. -/
  cacheKey : Int → List UInt8
  /-- The text cached for a row. -/
  encode : Int → R → List UInt8
  /-- The results taken from a cached text. -/
  decode : List UInt8 → List (List UInt8)
  /-- The counter moves on before the insert, so also for an insert that fails. -/
  eager : Bool
  key_text : ∀ key, 0 ∉ cacheKey key
  key_inj : Function.Injective cacheKey
  encode_text : ∀ key row, 0 ∉ encode key row
  /-- A text read as the results of a row is the text of that row. -/
  encode_eq : ∀ key row row', decode (encode key row) = values key row' →
    encode key row = encode key row'

/-! ## The SQL backends -/

/-- `generate_read_sql`. -/
def generateReadSql (tableName : CString) (key : Int) : List UInt8 :=
  ascii "SELECT * FROM " ++ tableName.bytes ++ ascii " WHERE ycsb_key = " ++ decimalInt key ++
    ascii ";"

theorem zero_not_mem_generateReadSql (tableName : CString) (key : Int) :
    0 ∉ generateReadSql tableName key := by
  have hselect : 0 ∉ ascii "SELECT * FROM " := by decide +kernel
  have hwhere : 0 ∉ ascii " WHERE ycsb_key = " := by decide +kernel
  have hend : 0 ∉ ascii ";" := by decide +kernel
  simp [generateReadSql, hselect, hwhere, hend, tableName.nul_free, zero_not_mem_decimalInt]

theorem generateReadSql_injective (tableName : CString) :
    Function.Injective (generateReadSql tableName) := by
  intro key key' h
  exact decimalInt_injective (List.append_cancel_left (List.append_cancel_right h))

/-- `MySQLBackend` and `SQLiteBackend` cache packed rows under the text of the query. An insert
that fails throws in the one and returns false in the other. -/
def sqlBackend (cfg : Config) (tableName : CString) : Flavour (TableRow cfg) where
  maxRecords := cfg.maxRecords
  values _ := TableRow.fields
  cacheKey := generateReadSql tableName
  encode _ row := packValues row.fields
  decode text := unpackValues text cfg.maxFieldSize
  eager := true
  key_text := zero_not_mem_generateReadSql tableName
  key_inj := generateReadSql_injective tableName
  encode_text _ row := row.zero_not_mem
  encode_eq _ row row' h := by rw [← h, pack_unpack cfg.size_pos]

/-! ## The MongoDB backend -/

/-- The document of a row. -/
def TextRow.document {cfg : Config} (key : Int) (row : TextRow cfg) : Document :=
  Backend.document key row.fields

theorem TextRow.readable {cfg : Config} (row : TextRow cfg) :
    ∀ v ∈ row.fields, Text.isUtf8 v = true ∧ 0 ∉ v :=
  fun v hv => ⟨row.utf8 v hv, row.text v hv⟩

/-- The loop of `read_record` reads the fields of a row from its document. -/
theorem TextRow.fields_document {cfg : Config} (key : Int) (row : TextRow cfg) :
    (row.document key).fields cfg.maxFields = row.fields := by
  rw [document, ← row.count, Backend.fields_document]

/-- `MongoDBBackend` caches documents as JSON, and invalidates after a successful insert only. -/
def mongoDBBackend (cfg : Config) (codec : JsonCodec) : Flavour (TextRow cfg) where
  maxRecords := cfg.maxRecords
  values key row := (row.document key).fields cfg.maxFields
  cacheKey key := codec.toJson (document key [])
  encode key row := codec.toJson (row.document key)
  decode text := (codec.fromJson text).fields cfg.maxFields
  eager := false
  key_text key := codec.text key [] (by simp)
  key_inj key key' h := by
    have hread := congrArg codec.fromJson h
    rw [codec.back key [] (by simp), codec.back key' [] (by simp)] at hread
    exact congrArg Document.id hread
  encode_text key row := codec.text key row.fields row.readable
  encode_eq key row row' h := by
    have hback : codec.fromJson (codec.toJson (row.document key)) = row.document key :=
      codec.back key row.fields row.readable
    rw [hback, row.fields_document, row'.fields_document] at h
    rw [TextRow.fields_injective h]

end CachelibArchive.Backend
