import CachelibArchive.Backend.Benchmark
import CachelibArchive.Backend.LevelDB

/-!
# The benchmark on LevelDB

The clean-up behind a run deletes from the database alone: what the run has inserted stays cached.
It is never read, as the next run reads only keys below the number of its own records, and caches
its own record under a key before it counts it.
-/

namespace CachelibArchive.Backend

open ClientServer

variable {cfg : Config}

namespace LevelDBBackend

/-- The loop of `LevelDBBackend::clean_up` from the key `i` on. -/
def deleteFrom (db : List UInt8 → Option (List UInt8)) (i : Int) :
    Nat → List UInt8 → Option (List UInt8)
  | 0 => db
  | left + 1 => deleteFrom (Function.update db (decimalInt i) none) (i + 1) left

/-- `LevelDBBackend::clean_up`, where `next` is `g_next_insert_key`. -/
def cleanUp (cfg : Config) (w : LevelDB) (next : Int) : LevelDB :=
  { w with db := deleteFrom w.db cfg.maxRecords (next - cfg.maxRecords).toNat }

/-- A query on rows. -/
abbrev rowQuery (b : LevelDBBackend) (w : LevelDB) (q : Query (Row cfg)) : Answer × LevelDB :=
  query cfg Row.values b w q

/-- A `LevelDBBackend` as an implementation of `Backend`. -/
def implementation (cfg : Config) (b : LevelDBBackend) : Implementation cfg LevelDB where
  insertRecord w key row := b.rowQuery w (.insert key row)
  readRecord w key := b.rowQuery w (.read key : Query (Row cfg))
  cleanUp := cleanUp cfg
  evict w keys := { w with server := keys.foldl Backend.evict w.server }

/-- The loop of deletions takes the keys of a range out. -/
theorem deleteFrom_decimal (db : List UInt8 → Option (List UInt8)) (i : Int) (left : Nat)
    (key : Int) : deleteFrom db i left (decimalInt key) =
      if i ≤ key ∧ key < i + left then none else db (decimalInt key) := by
  induction left generalizing db i with
  | zero =>
    have hnone : ¬(i ≤ key ∧ key < i + (0 : Nat)) := by omega
    rw [deleteFrom, if_neg hnone]
  | succ left ih =>
    rw [deleteFrom, ih]
    by_cases hkey : key = i
    · subst hkey
      rw [Function.update_self, ite_self, if_pos (by omega)]
    · rw [Function.update_of_ne (decimalInt_injective.ne hkey)]
      apply if_congr _ rfl rfl
      omega

end LevelDBBackend

/-! ## What is stored and what is cached -/

/-- Rows reach the cache. -/
def Config.Cacheable (cfg : Config) : Prop :=
  cfg.maxFields * cfg.maxFieldSize ≤ AutoIncCache.maxValueSize

/-- A packed row is its fields one after the other. -/
theorem Row.length_pack (row : Row cfg) :
    (packValues row.values).length = cfg.maxFields * cfg.maxFieldSize := by
  have hlengths : row.values.map List.length =
      List.replicate cfg.maxFields cfg.maxFieldSize := by
    rw [List.eq_replicate_iff, List.length_map, Row.values, strings, List.length_map, row.full]
    refine ⟨rfl, fun n hn => ?_⟩
    obtain ⟨v, hv, rfl⟩ := List.mem_map.mp hn
    obtain ⟨f, _, rfl⟩ := List.mem_map.mp hv
    exact f.full
  rw [packValues_eq_flatten, List.length_flatten, hlengths, List.sum_replicate_nat]

/-- Whether the cache takes a row is decided by the configuration. -/
theorem Row.takes_iff (row : Row cfg) :
    AutoIncCache.Takes (packValues row.values) true ↔ cfg.Cacheable := by
  rw [AutoIncCache.Takes, row.length_pack]
  exact and_iff_left rfl

namespace LevelDB

/-- The database holds the table. -/
def Holds (w : LevelDB) (t : Int → Option (Row cfg)) : Prop :=
  ∀ key, w.db (decimalInt key) = (t key).map fun row => packValues row.values

/-- The database holds the table, and nothing is cached for any key. -/
structure Plain (cache : AutoIncCache) (w : LevelDB) (t : Int → Option (Row cfg)) : Prop where
  holds : w.Holds t
  uncached : ∀ key, cache.entry w.server (decimalInt key) = none

/-- Nothing but the rows of the table is cached for their keys. For other keys there may be rows of
an earlier run. -/
def Caches (cache : AutoIncCache) (server : Cache) (t : Int → Option (Row cfg)) : Prop :=
  ∀ key, ∀ v ∈ cache.entry server (decimalInt key),
    v = [] ∨ cfg.Cacheable ∧ ∀ row ∈ t key, v = packValues row.values

/-- The database holds the table, and the cache goes with it. -/
structure Coincides (cache : AutoIncCache) (w : LevelDB) (t : Int → Option (Row cfg)) : Prop where
  holds : w.Holds t
  caches : Caches cache w.server t

variable {cache : AutoIncCache} {w : LevelDB} {t : Int → Option (Row cfg)} {key : Int}
  {row : Row cfg}

/-- Without a cache the two stores agree on every query. -/
theorem Plain.coincides (h : Plain cache w t) : Coincides cache w t :=
  ⟨h.holds, fun key v hv => by rw [h.uncached key] at hv; cases hv⟩

/-- The value of a row in the table is the packed row. -/
theorem Holds.value (h : w.Holds t) (hrow : t key = some row) :
    w.db (decimalInt key) = some (packValues row.values) := by
  rw [h key, hrow, Option.map_some]

/-- Inserting a row keeps the database to the table. -/
theorem Holds.insert (h : w.Holds t) (key : Int) (row : Row cfg) (server : Cache) :
    Holds ⟨Function.update w.db (decimalInt key) (some (packValues row.values)), server⟩
      (Function.update t key (some row)) := by
  intro key'
  by_cases hkey : key' = key
  · subst hkey
    dsimp only
    rw [Function.update_self, Function.update_self, Option.map_some]
  · dsimp only
    rw [Function.update_of_ne hkey, Function.update_of_ne (decimalInt_injective.ne hkey), h key']

/-- Cleaning up leaves the loaded part of the table. -/
theorem Holds.cleanUp (h : w.Holds t) {next : Int} (hnext : ∀ key, next ≤ key → t key = none) :
    (LevelDBBackend.cleanUp cfg w next).Holds (loadedPart t) := by
  intro key
  dsimp only [LevelDBBackend.cleanUp]
  rw [LevelDBBackend.deleteFrom_decimal, h key, loadedPart]
  by_cases hle : (cfg.maxRecords : Int) ≤ key
  · rw [if_pos hle, Option.map_none]
    split_ifs with hin
    · rfl
    · rw [hnext key (by omega), Option.map_none]
  · rw [if_neg hle, if_neg fun hin => hle hin.1]

/-- The loaded part is a part. -/
theorem loadedPart_of_eq_some (h : loadedPart t key = some row) : t key = some row := by
  unfold loadedPart at h
  split_ifs at h
  exact h

/-- A row replaces what was cached under its key, if rows reach the cache at all. -/
theorem Caches.set {server : Cache} (h : Caches cache server t) (key : Int) (row : Row cfg) :
    Caches cache (cache.set_ server (decimalInt key) (packValues row.values) true).2
      (Function.update t key (some row)) := by
  intro key' v hv
  have htext : (0 : UInt8) ∉ packValues row.values := zero_not_mem_pack row.fields
  by_cases hkey : key' = key
  · subst hkey
    rw [Function.update_self]
    rw [cache.entry_set_same _ _ htext] at hv
    split_ifs at hv with htakes
    · cases hv
      right
      refine ⟨row.takes_iff.mp htakes, fun row' hrow' => ?_⟩
      cases hrow'
      rfl
    · exact (h key' v hv).imp_right fun hv => absurd (row.takes_iff.mpr hv.1) htakes
  · rw [Function.update_of_ne hkey]
    rw [cache.entry_set_decimal_of_ne _ hkey] at hv
    exact h key' v hv

/-- An insert through the cache keeps the database and the cache to the table. -/
theorem Coincides.insert (h : Coincides cache w t) (key : Int) (row : Row cfg) :
    Coincides cache (LevelDBBackend.rowQuery ⟨cache, true⟩ w (.insert key row)).2
      (Function.update t key (some row)) :=
  ⟨h.holds.insert key row _, h.caches.set key row⟩

/-- What a read finds, in the cache or in the database. -/
theorem Coincides.read (h : Coincides cache w t) (hrow : t key = some row) : ∃ w',
    LevelDBBackend.rowQuery ⟨cache, true⟩ w (.read key : Query (Row cfg)) =
      (.ok (true, row.values), w') ∧ Coincides cache w' t := by
  have hvalue := h.holds.value hrow
  have hunpack : unpackValues (packValues row.values) cfg.maxFieldSize = row.values :=
    unpackValues_pack row.fields
  by_cases hmiss : ∀ v ∈ cache.entry w.server (decimalInt key), v = []
  · refine ⟨{ w with
      server := (cache.set_ w.server (decimalInt key) (packValues row.values) true).2 },
      ?_, h.holds, ?_⟩
    · simp [LevelDBBackend.query, LevelDBBackend.readRecord, AutoIncCache.get_of_miss hmiss,
        hvalue, hunpack]
    · have hset := h.caches.set key row
      rwa [← hrow, Function.update_eq_self] at hset
  · push Not at hmiss
    obtain ⟨v, hv, hne⟩ := hmiss
    obtain rfl := ((h.caches key v hv).resolve_left hne).2 row hrow
    refine ⟨w, ?_, h⟩
    simp [LevelDBBackend.query, LevelDBBackend.readRecord, AutoIncCache.get_of_entry hv, hne,
      hunpack]

/-- So does an eviction. -/
theorem Coincides.evict (h : Coincides cache w t) (keys : List CString) :
    Coincides cache { w with server := keys.foldl Backend.evict w.server } t := by
  refine ⟨h.holds, fun key v hv => ?_⟩
  rcases cache.entry_evict w.server keys (decimalInt key) with hnone | hsame
  · rw [hnone] at hv
    cases hv
  · rw [hsame] at hv
    exact h.caches key v hv

/-- What a run leaves in the cache is under keys that are no longer in the table. -/
theorem Coincides.cleanUp (h : Coincides cache w t) {next : Int}
    (hnext : ∀ key, next ≤ key → t key = none) :
    Coincides cache (LevelDBBackend.cleanUp cfg w next) (loadedPart t) := by
  refine ⟨h.holds.cleanUp hnext, fun key v hv => ?_⟩
  refine (h.caches key v hv).imp_right fun hv => ⟨hv.1, fun row hrow => hv.2 row ?_⟩
  exact loadedPart_of_eq_some hrow

/-! Without the cache nothing is cached that was not before. -/

/-- An insert past the cache keeps the database to the table. -/
theorem Plain.insert (h : Plain cache w t) (key : Int) (row : Row cfg) :
    Plain cache (LevelDBBackend.rowQuery ⟨cache, false⟩ w (.insert key row)).2
      (Function.update t key (some row)) :=
  ⟨h.holds.insert key row _, h.uncached⟩

/-- A read past the cache returns the row of the table. -/
theorem Plain.read (h : Plain cache w t) (hrow : t key = some row) :
    LevelDBBackend.rowQuery ⟨cache, false⟩ w (.read key : Query (Row cfg)) =
      (.ok (true, row.values), w) := by
  have hvalue := h.holds.value hrow
  have hunpack : unpackValues (packValues row.values) cfg.maxFieldSize = row.values :=
    unpackValues_pack row.fields
  simp [LevelDBBackend.query, LevelDBBackend.readRecord, hvalue, hunpack]

/-- The cache may lose what it likes. -/
theorem Plain.evict (h : Plain cache w t) (keys : List CString) :
    Plain cache { w with server := keys.foldl Backend.evict w.server } t := by
  refine ⟨h.holds, fun key => ?_⟩
  rcases cache.entry_evict w.server keys (decimalInt key) with hnone | hsame
  · exact hnone
  · rw [hsame, h.uncached key]

end LevelDB

/-! ## The backends of the program -/

variable {cache : AutoIncCache}

/-- A `LevelDBBackend` keeps a table, with its cache, -/
theorem LevelDBBackend.implements_cached :
    Implements (implementation cfg ⟨cache, true⟩) (LevelDB.Coincides cache) where
  insert h _ row := ⟨_, rfl, h.insert _ row⟩
  read h hrow := h.read hrow
  cleanUp h hnext := h.cleanUp hnext
  evict keys h := h.evict keys

/-- and without it. -/
theorem LevelDBBackend.implements_plain :
    Implements (implementation cfg ⟨cache, false⟩) (LevelDB.Plain cache) where
  insert h _ row := ⟨_, rfl, h.insert _ row⟩
  read h hrow := ⟨_, h.read hrow, h⟩
  cleanUp h hnext := ⟨h.holds.cleanUp hnext, h.uncached⟩
  evict keys h := h.evict keys

/-- Any number of runs on a freshly loaded LevelDB, with the cache or without: whatever is drawn
and whatever the cache server drops, each run makes all its queries, every read returns the fields
that were last inserted under its key, and the runs leave the database as it was loaded. -/
theorem LevelDBBackend.program_finishes (hfields : 0 < cfg.maxFields) (cache : AutoIncCache)
    (cacheEnabled : Bool) (mix : Workmix) {w : LevelDB}
    (hdb : ∀ key, w.db (decimalInt key) = none)
    (hserver : ∀ key, cache.entry w.server (decimalInt key) = none) (rng : Generator)
    {rounds : List Round} (hrounds : ∀ r ∈ rounds, r.Valid cfg) :
    ∃ loaded log₁ w' log,
      loadFrom (implementation cfg ⟨cache, false⟩) 0 w rng [] cfg.maxRecords =
        .ok (true, loaded, log₁) ∧
      program (implementation cfg ⟨cache, false⟩) (implementation cfg ⟨cache, cacheEnabled⟩) mix w
        rng rounds = some (.ok (w', log)) ∧
      Trace.AtEach Answered log ∧
      log.length = cfg.maxRecords + (rounds.map fun r => r.maxQuery.toNat).sum ∧
      ∀ key, w'.db (decimalInt key) = loaded.db (decimalInt key) := by
  have hw : LevelDB.Plain cache w (fun _ => none : Int → Option (Row cfg)) :=
    ⟨hdb, hserver⟩
  cases cacheEnabled with
  | false =>
    obtain ⟨loaded, log₁, w', log, t, hload, hrun, hlog, hloaded, hw', -, hlength⟩ :=
      program_spec implements_plain implements_plain id hfields mix hw rng hrounds
    refine ⟨loaded, log₁, w', log, hload, hrun, hlog, hlength, fun key => ?_⟩
    rw [hw'.holds key, hloaded.holds key]
  | true =>
    obtain ⟨loaded, log₁, w', log, t, hload, hrun, hlog, hloaded, hw', -, hlength⟩ :=
      program_spec implements_plain implements_cached LevelDB.Plain.coincides hfields mix hw rng
        hrounds
    refine ⟨loaded, log₁, w', log, hload, hrun, hlog, hlength, fun key => ?_⟩
    rw [hw'.holds key, hloaded.holds key]

/-- The warm-up in sequence, and a run of inserts. -/
def twoRounds : List Round :=
  [⟨⟨fun _ => 7⟩, ⟨fun _ => 0⟩, 0, true, 1000, fun _ => []⟩,
    ⟨⟨fun _ => 99⟩, ⟨fun _ => 0⟩, 20, false, 50, fun _ => [.empty]⟩]

/-- The shipped configuration, half of the queries reads. -/
theorem LevelDBBackend.program_finishes_twoRounds :
    ∃ (loaded : LevelDB) (log₁ : QueryLog shipped) (w' : LevelDB) (log : QueryLog shipped),
      loadFrom (implementation shipped ⟨enableCache 0 0 .empty, false⟩) 0 .empty ⟨fun _ => 0⟩ []
        1000 = .ok (true, loaded, log₁) ∧
      program (implementation shipped ⟨enableCache 0 0 .empty, false⟩)
        (implementation shipped ⟨enableCache 0 0 .empty, true⟩) ⟨fun n => n < 50, .drawn⟩ .empty
        ⟨fun _ => 0⟩ twoRounds = some (.ok (w', log)) ∧
      Trace.AtEach Answered log ∧ log.length = 2050 ∧
      ∀ key, w'.db (decimalInt key) = loaded.db (decimalInt key) := by
  apply program_finishes (by decide) _ true _ (fun _ => rfl) (fun _ => rfl)
  intro r hr
  simp only [twoRounds, List.mem_cons, List.not_mem_nil, or_false] at hr
  obtain rfl | rfl := hr
  all_goals exact ⟨by decide, by decide, by decide⟩

end CachelibArchive.Backend
