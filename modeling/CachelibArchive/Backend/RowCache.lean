import CachelibArchive.Backend.Codec
import CachelibArchive.Backend.Sql
import CachelibArchive.Backend.Transport

/-!
# Rows through the cache

A miss answers with the columns of the row, a hit with pieces of one size cut from their
concatenation. The columns are `varchar(MAX_FIELD_SIZE)`: a field is as long as it likes up to
that many characters, and nothing pads it. So the two answers agree for the rows whose
concatenation is cut where the fields end, and for those that are never cached. A row that is
accepted and does not fit the message is neither: the copy of it leaves its array.
-/

namespace CachelibArchive.Backend

open ClientServer Pieces

/-- Characters of a text: the bytes that do not continue one, as in UTF-8. -/
def characters (text : List UInt8) : Nat := text.countP fun b => b &&& 0xC0 != 0x80

/-- A row `create_database` admits: no field has more than `MAX_FIELD_SIZE` characters. -/
structure SchemaRow (cfg : Config) extends TableRow cfg where
  size : ∀ f ∈ fields, characters f ≤ cfg.maxFieldSize

/-- What a read works on: the cache of the server, the message and the array of the client, and
`hit_count`. -/
structure ReadState where
  server : Cache
  message : ShmStru
  getValue : CharBuffer
  hitCount : Nat

/-- `read_record` of `MySQLBackend` and `SQLiteBackend` with the cache enabled, where the table
has the row `row` for the key. -/
def readRecord (cfg : Config) (r : CacheNames) (tableName : CString) (key : Int)
    (row : Option (List (List UInt8))) (allocated : Bool) (w : ReadState) :
    Option ((Bool × List (List UInt8)) × ReadState) := do
  let sql := generateReadSql tableName key
  let (value, message, getValue) ← r.get_ w.server w.message w.getValue sql
  let w := { w with message, getValue }
  if value ≠ [] then
    some ((true, unpackValues value cfg.maxFieldSize), { w with hitCount := w.hitCount + 1 })
  else
    match row with
    | none => some ((false, []), w)
    | some results =>
      let (server, message) ←
        (r.set_ w.server w.message sql (packValues results) allocated).2
      some ((true, results), { w with server, message })

variable {cfg : Config} {r : CacheNames} {tableName : CString} {key : Int}
  {row : Option (List (List UInt8))} {allocated : Bool} {w : ReadState}

/-- What the server has cached for a read. -/
def cached (r : CacheNames) (tableName : CString) (key : Int) (w : ReadState) : Option CString :=
  w.server.find (r.slot (generateReadSql tableName key))

/-- The cache key of a read leaves room for its terminator. -/
def KeyFits (r : CacheNames) (tableName : CString) (key : Int) : Prop :=
  (r.slot (generateReadSql tableName key)).length < shmKeySize

instance : Decidable (KeyFits r tableName key) := inferInstanceAs (Decidable (_ < _))

/-- A read that meets an entry answers with the pieces of it. -/
theorem readRecord_of_hit (cfg : Config) (row : Option (List (List UInt8))) (allocated : Bool)
    (hkey : KeyFits r tableName key) {v : CString} (hcached : cached r tableName key w = some v)
    (hne : v.bytes ≠ []) (hlen : v.length < shmValueSize) :
    ∃ w', readRecord cfg r tableName key row allocated w =
      some ((true, unpackValues v.bytes cfg.maxFieldSize), w') ∧
      w'.hitCount = w.hitCount + 1 := by
  rw [cached] at hcached
  have hroom : ∀ u ∈ w.server.find (r.slot (generateReadSql tableName key)),
      u.length < shmValueSize := by
    intro u hu
    obtain rfl := Option.some.inj (hcached.symm.trans (Option.mem_def.mp hu))
    exact hlen
  obtain ⟨m', getValue', hget⟩ := CacheNames.get_of_fits hkey hroom w.message w.getValue
  rw [hcached, Option.getD_some] at hget
  rw [readRecord, hget, Option.bind_eq_bind, Option.bind_some]
  dsimp only
  rw [if_pos hne]
  exact ⟨_, rfl, rfl⟩

/-- A read that finds nothing cached, or an empty string, answers with the row, if the set of it
is defined. -/
theorem readRecord_of_miss (cfg : Config) (hkey : KeyFits r tableName key)
    (hmiss : ∀ v ∈ cached r tableName key w, v.bytes = []) (fields : List (List UInt8))
    (allocated : Bool) : ∃ m getValue, readRecord cfg r tableName key (some fields) allocated w =
      (r.set_ w.server m (generateReadSql tableName key) (packValues fields) allocated).2.map
        fun p => ((true, fields), ⟨p.1, p.2, getValue, w.hitCount⟩) := by
  have hroom : ∀ v ∈ w.server.find (r.slot (generateReadSql tableName key)),
      v.length < shmValueSize := by
    intro v hv
    rw [CString.length, hmiss v hv]
    decide
  obtain ⟨m, getValue, hget⟩ := CacheNames.get_of_fits hkey hroom w.message w.getValue
  have hnone : ((w.server.find (r.slot (generateReadSql tableName key))).getD .empty).bytes = [] := by
    cases hv : w.server.find (r.slot (generateReadSql tableName key)) with
    | none => rfl
    | some v => exact hmiss v hv
  rw [hnone] at hget
  refine ⟨m, getValue, ?_⟩
  rw [readRecord, hget, Option.bind_eq_bind, Option.bind_some]
  dsimp only
  rw [if_neg (by simp)]
  cases (r.set_ w.server m (generateReadSql tableName key) (packValues fields) allocated).2 <;> rfl

/-- Where key, entry and row fit the message, a read is a read of the backend whose cache keeps
strings of any length. -/
theorem readRecord_eq_readRow {a : AutoIncCache} {w : SqlStores (TableRow cfg)} {key : Int}
    (hkey : KeyFits (AutoIncCache.names { a with counter := w.counter }) tableName key)
    (hroom : ∀ v ∈ cachedAt (sqlBackend cfg tableName) a w.server w.counter key,
      v.length < shmValueSize)
    (hrow : ∀ row ∈ w.db key, (packValues row.fields).length < shmValueSize) (m : ShmStru)
    (getValue : CharBuffer) (hits : Nat) :
    ∃ w', readRecord cfg (AutoIncCache.names { a with counter := w.counter }) tableName key
        ((w.db key).map TableRow.fields) true ⟨w.server, m, getValue, hits⟩ =
      some ((readRow (sqlBackend cfg tableName) a w key).1, w') ∧
      w'.server = (readRow (sqlBackend cfg tableName) a w key).2.server := by
  have hroom' : ∀ v ∈ w.server.find (AutoIncCache.slot { a with counter := w.counter }
      (generateReadSql tableName key)), v.length < shmValueSize :=
    fun v hv => hroom v.bytes (Option.mem_map_of_mem CString.bytes hv)
  obtain ⟨m', getValue', hget⟩ := AutoIncCache.get_eq_of_fits (a := { a with counter := w.counter })
    hkey hroom' m getValue
  rw [readRecord, hget, Option.bind_eq_bind, Option.bind_some]
  dsimp only
  by_cases hhit : AutoIncCache.get_ { a with counter := w.counter } w.server
      (generateReadSql tableName key) ≠ []
  · have hread : readRow (sqlBackend cfg tableName) a w key = ((true, unpackValues
        (AutoIncCache.get_ { a with counter := w.counter } w.server (generateReadSql tableName key))
        cfg.maxFieldSize), w) := if_pos hhit
    rw [if_pos hhit, hread]
    exact ⟨_, rfl, rfl⟩
  · rw [if_neg hhit]
    cases hdb : w.db key with
    | none =>
      have hread : readRow (sqlBackend cfg tableName) a w key = ((false, []), w) := by
        simp only [readRow, sqlBackend, if_neg hhit, hdb]
      rw [hread]
      exact ⟨_, rfl, rfl⟩
    | some row =>
      have hread : readRow (sqlBackend cfg tableName) a w key = ((true, row.fields), { w with
          server := (AutoIncCache.set_ { a with counter := w.counter } w.server
            (generateReadSql tableName key) (packValues row.fields) true).2 }) := by
        simp only [readRow, sqlBackend, if_neg hhit, hdb]
      have hlen := hrow row hdb
      have hfits : (AutoIncCache.names { a with counter := w.counter }).Fits
          (generateReadSql tableName key) (packValues row.fields) := by
        refine ⟨hkey, ?_⟩
        rwa [CString.length, CString.ofBytes_of_nul_free row.zero_not_mem]
      have hmax : shmValueSize ≤ AutoIncCache.maxValueSize := by decide
      obtain ⟨m₂, hset⟩ := AutoIncCache.set_eq_of_fits hfits (hlen.le.trans hmax) w.server m' true
      rw [hread, Option.map_some]
      dsimp only
      rw [hset]
      exact ⟨_, rfl, rfl⟩

/-! ## Two reads -/

/-- A read that misses is defined and answers with the row; and where it has cached the row, any
later read that meets this entry is defined, and answers with the same fields if it is a hit. -/
def HitReturnsRow (r : CacheNames) (tableName : CString) (key : Int) (row : SchemaRow cfg) : Prop :=
  ∀ (w : ReadState) (allocated : Bool), (∀ v ∈ cached r tableName key w, v.bytes = []) →
    ∃ w₁, readRecord cfg r tableName key (some row.fields) allocated w =
        some ((true, row.fields), w₁) ∧
      (cached r tableName key w₁ = some (.ofBytes (packValues row.fields)) →
        ∀ (w₂ : ReadState) (allocated₂ : Bool),
          cached r tableName key w₂ = some (.ofBytes (packValues row.fields)) →
          ∃ answer w₃, readRecord cfg r tableName key (some row.fields) allocated₂ w₂ =
              some (answer, w₃) ∧
            (w₃.hitCount = w₂.hitCount + 1 → answer = (true, row.fields)))

/-- The set of a row is defined: `AutoIncCache` turns the row away, or it fits the message. -/
def Settable (row : TableRow cfg) : Prop :=
  AutoIncCache.maxValueSize < (packValues row.fields).length ∨
    (packValues row.fields).length < shmValueSize

theorem settable_iff {row : TableRow cfg} (hkey : KeyFits r tableName key) {server : Cache}
    {m : ShmStru} : Settable row ↔
      (r.set_ server m (generateReadSql tableName key) (packValues row.fields)
        allocated).2.isSome := by
  have hbytes := CString.ofBytes_of_nul_free row.zero_not_mem
  rw [Settable, CacheNames.set_]
  split_ifs with hlong
  · exact iff_of_true (.inl hlong) rfl
  · rw [or_iff_right hlong]
    constructor
    · intro hlen
      have hfits : r.Fits (generateReadSql tableName key) (packValues row.fields) := by
        refine ⟨hkey, ?_⟩
        rwa [CString.length, hbytes]
      exact exchangeSet_isSome.mpr hfits
    · intro hset
      have hlen := (exchangeSet_isSome.mp hset).2
      rwa [CString.length, hbytes] at hlen

/-- The set of a row that fits caches the row. -/
theorem set_row (hkey : KeyFits r tableName key) {row : TableRow cfg}
    (hlen : (packValues row.fields).length < shmValueSize) (server : Cache) (m : ShmStru) :
    ∃ server' m', (r.set_ server m (generateReadSql tableName key) (packValues row.fields) true).2 =
        some (server', m') ∧
      server'.find (r.slot (generateReadSql tableName key)) =
        some (.ofBytes (packValues row.fields)) := by
  have hfits : r.Fits (generateReadSql tableName key) (packValues row.fields) := by
    refine ⟨hkey, ?_⟩
    rwa [CString.length, CString.ofBytes_of_nul_free row.zero_not_mem]
  have hmax : shmValueSize ≤ AutoIncCache.maxValueSize := by decide
  obtain ⟨m', hset⟩ := CacheNames.set_of_fits hfits (hlen.le.trans hmax) server m true
  refine ⟨_, m', congrArg Prod.snd hset, ?_⟩
  rw [ClientServer.set_, if_pos rfl, find_update_same]
  rfl

/-- Where the set of the row is defined, so is a read that misses. A row that is turned away
leaves the cache as it is. -/
theorem readRecord_of_settable (hkey : KeyFits r tableName key) {row : TableRow cfg}
    (hset : Settable row) (allocated : Bool)
    (hmiss : ∀ v ∈ cached r tableName key w, v.bytes = []) :
    ∃ w₁, readRecord cfg r tableName key (some row.fields) allocated w =
        some ((true, row.fields), w₁) ∧ w₁.hitCount = w.hitCount ∧
      (AutoIncCache.maxValueSize < (packValues row.fields).length → w₁.server = w.server) := by
  obtain ⟨m, getValue, hread⟩ := readRecord_of_miss cfg hkey hmiss row.fields allocated
  have hsome : (r.set_ w.server m (generateReadSql tableName key) (packValues row.fields)
      allocated).2.isSome := (settable_iff hkey).mp hset
  obtain ⟨⟨server', m'⟩, hdefined⟩ := Option.isSome_iff_exists.mp hsome
  rw [hread, hdefined]
  refine ⟨_, rfl, rfl, fun hlong => ?_⟩
  rw [CacheNames.set_, if_pos hlong] at hdefined
  exact (congrArg Prod.fst (Option.some.inj hdefined)).symm

/-- Where every read is defined and a hit answers with the row, the key fits, the set of the row
is defined, and a row that is cached is cut where its fields end. -/
theorem HitReturnsRow.exact {row : SchemaRow cfg} (h : HitReturnsRow r tableName key row) :
    KeyFits r tableName key ∧ Settable row.toTableRow ∧
      (packValues row.fields ≠ [] → (packValues row.fields).length < shmValueSize →
        Cut cfg.maxFieldSize row.fields) := by
  -- a read on an empty cache
  obtain ⟨w₁, hread, hlater⟩ := h ⟨fun _ => none, ⟨0, 0, .zero⟩, .zero, 0⟩ true
    fun v hv => nomatch hv
  have hkey : KeyFits r tableName key := by
    obtain ⟨⟨value, m, getValue⟩, hget, -⟩ := Option.bind_eq_some_iff.mp hread
    exact (CacheNames.of_get hget).2.1
  obtain ⟨m, getValue, hmiss⟩ := readRecord_of_miss cfg
    (w := ⟨fun _ => none, ⟨0, 0, .zero⟩, .zero, 0⟩) hkey (fun v hv => nomatch hv) row.fields true
  rw [hmiss] at hread
  refine ⟨hkey, ?_, fun hne hlen => ?_⟩
  · obtain ⟨p, hset, -⟩ := Option.map_eq_some_iff.mp hread
    exact (settable_iff hkey).mpr (Option.isSome_of_eq_some hset)
  · have hfits : (packValues row.toTableRow.fields).length < shmValueSize := hlen
    obtain ⟨server', m', hset, hcached⟩ := set_row hkey hfits (fun _ => none) m
    rw [hset, Option.map_some] at hread
    obtain ⟨-, rfl⟩ := Prod.mk.inj (Option.some.inj hread)
    have hbytes := CString.ofBytes_of_nul_free row.zero_not_mem
    obtain ⟨w₄, hhit, hcount⟩ := readRecord_of_hit cfg (w := ⟨server', m', getValue, 0⟩)
      (some row.fields) true hkey hcached (hbytes.symm ▸ hne) (by rwa [CString.length, hbytes])
    obtain ⟨answer, w₃, hread₂, hsame⟩ := hlater hcached ⟨server', m', getValue, 0⟩ true hcached
    rw [hhit] at hread₂
    obtain ⟨rfl, rfl⟩ := Prod.mk.inj (Option.some.inj hread₂)
    rw [← unpack_pack_iff cfg.size_pos, ← hbytes]
    exact (Prod.mk.inj (hsame hcount)).2

/-- A read that misses is defined and a hit answers with the fields of the row, exactly if the
cache key fits its array and the row is empty, is turned away as too long, or fits the value array
with every field but the last full and the last of at least one and at most `MAX_FIELD_SIZE`
bytes. -/
theorem hitReturnsRow_iff (cfg : Config) (r : CacheNames) (tableName : CString) (key : Int)
    (row : SchemaRow cfg) :
    HitReturnsRow r tableName key row ↔ KeyFits r tableName key ∧
      (packValues row.fields = [] ∨
        AutoIncCache.maxValueSize < (packValues row.fields).length ∨
        (packValues row.fields).length < shmValueSize ∧ Cut cfg.maxFieldSize row.fields) := by
  have hbytes := CString.ofBytes_of_nul_free row.zero_not_mem
  constructor
  · intro h
    obtain ⟨hkey, hset, hcut⟩ := h.exact
    refine ⟨hkey, ?_⟩
    by_cases hne : packValues row.fields = []
    · exact .inl hne
    · exact .inr (hset.imp_right fun hlen => ⟨hlen, hcut hne hlen⟩)
  · rintro ⟨hkey, hrow⟩ w allocated hmiss
    have hset : Settable row.toTableRow := by
      obtain hnil | hlong | ⟨hlen, -⟩ := hrow
      · right
        rw [hnil]
        decide
      · exact .inl hlong
      · exact .inr hlen
    obtain ⟨w₁, hread, -, hkept⟩ := readRecord_of_settable hkey hset allocated hmiss
    refine ⟨w₁, hread, fun hcached w₂ allocated₂ hcached₂ => ?_⟩
    by_cases hnil : packValues row.fields = []
    · -- an empty entry is a miss
      obtain ⟨w₃, hread₃, hcount, -⟩ := readRecord_of_settable (w := w₂) hkey hset allocated₂
        fun v hv => by
          obtain rfl := Option.some.inj (hcached₂.symm.trans hv)
          rw [hbytes, hnil]
      exact ⟨_, w₃, hread₃, fun hhit => absurd (hcount.symm.trans hhit) (by omega)⟩
    · obtain hlong | ⟨hlen, hcut⟩ := hrow.resolve_left hnil
      · -- a row turned away is not in the cache
        rw [cached, hkept hlong] at hcached
        exact absurd (hbytes.symm.trans (hmiss _ hcached)) hnil
      · obtain ⟨w₃, hread₃, -⟩ := readRecord_of_hit cfg (some row.fields) allocated₂ hkey hcached₂
          (hbytes.symm ▸ hnil) (by rwa [CString.length, hbytes])
        refine ⟨_, w₃, hread₃, fun _ => ?_⟩
        rw [hbytes, (unpack_pack_iff cfg.size_pos row.fields).mpr hcut]

/-- The shipped configuration with a second field. -/
def twoFields : Config := { shipped with maxFields := 2 }

/-- Two fields of one byte each: a hit answers with one field of two. -/
def twoLetters : SchemaRow twoFields where
  fields := [[97], [98]]
  count := rfl
  size := by decide
  text := by decide

/-- One field of 128 characters of two bytes each: a hit of the shipped configuration answers
with two fields. -/
def accents : SchemaRow shipped where
  fields := [(List.replicate 128 [195, 169]).flatten]
  count := rfl
  size := by decide +kernel
  text := by decide +kernel

/-- Neither row is returned by a hit. -/
theorem not_hitReturnsRow :
    ¬HitReturnsRow ⟨0, [], ⟨0, []⟩⟩ .empty 7 twoLetters ∧
      ¬HitReturnsRow ⟨0, [], ⟨0, []⟩⟩ .empty 7 accents := by
  constructor
  · intro h
    have hcut := h.exact.2.2 (by decide) (by decide)
    revert hcut
    decide
  · intro h
    have hcut := h.exact.2.2 (by decide +kernel) (by decide +kernel)
    revert hcut
    decide +kernel

end CachelibArchive.Backend
