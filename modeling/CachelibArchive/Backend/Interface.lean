import CachelibArchive.Backend.LevelDB
import CachelibArchive.Backend.Tmdb

/-!
# One interface, two backends

`TmdbBackend` and `LevelDBBackend` behind the same interface, without the cache.
The one keeps the first field of the first record of a key, the other all fields
of the latest, and only the other has an answer for a key without a record.
-/

namespace CachelibArchive.Backend

/-- A record of at least one field. -/
structure Record (cfg : Config) where
  fields : List (Field cfg)
  ne : fields ≠ []

namespace Record

variable {cfg : Config}

/-- `values[0]`. -/
def first (r : Record cfg) : Field cfg := r.fields.head r.ne

/-- The strings passed to `insert_record`. -/
def values (r : Record cfg) : List (List UInt8) := strings r.fields

/-- `values[0].c_str()`. -/
def firstString (r : Record cfg) : CString := ⟨r.first.bytes, r.first.text⟩

theorem values_eq_cons (r : Record cfg) : ∃ rest, r.values = r.first.bytes :: rest := by
  obtain ⟨fields, ne⟩ := r
  cases fields with
  | nil => contradiction
  | cons f fields => exact ⟨strings fields, rfl⟩

/-- A record is the single field `f` exactly if its strings are. -/
theorem values_eq_singleton {r : Record cfg} {f : Field cfg} :
    r.values = [f.bytes] ↔ r.fields = [f] :=
  ⟨fun h => strings_injective h, fun h => congrArg strings h⟩

end Record

variable {cfg : Config}

/-- A query to a `TmdbBackend` without cache. -/
abbrev tmdbQuery (cfg : Config) (cache : AutoIncCache) :
    TmdbStores → Query (Record cfg) → Answer × TmdbStores :=
  TmdbBackend.query Record.values ⟨cache, false⟩

/-- A query to a `LevelDBBackend` without cache. -/
abbrev levelDBQuery (cfg : Config) (cache : AutoIncCache) :
    LevelDB → Query (Record cfg) → Answer × LevelDB :=
  LevelDBBackend.query cfg Record.values ⟨cache, false⟩

/-- The condition on a read: its key has a record, and the latest one is the single field the
first one begins with. -/
def FirstFieldOnly (before : List (Query (Record cfg))) : Query (Record cfg) → Prop
  | .insert .. => True
  | .read key => ∃ first ∈ (Query.inserted before key).head?,
      ∃ latest ∈ (Query.inserted before key).getLast?, latest.fields = [first.first]

/-- The database holds, under every key, the packed form of the latest record. -/
def LatestStored (done : List (Query (Record cfg))) (db : List UInt8 → Option (List UInt8)) :
    Prop :=
  ∀ key, db (decimalInt key) =
    (Query.inserted done key).getLast?.map fun r => packValues r.values

/-- Both backends after the same queries. -/
structure SameQueries (done : List (Query (Record cfg))) (wt : TmdbStores) (wl : LevelDB) :
    Prop where
  first : FirstStored Record.firstString done wt.db
  latest : LatestStored done wl.db

section

variable {cache : AutoIncCache} {done : List (Query (Record cfg))} {wt : TmdbStores} {wl : LevelDB}

/-- An insert of tmdb stores the first field, -/
theorem tmdbQuery_insert (key : Int) (r : Record cfg) :
    tmdbQuery cfg cache wt (.insert key r) =
      (.ok (true, []), { wt with db := tdbStore wt.db (keyString key) r.firstString }) := by
  obtain ⟨rest, hvalues⟩ := r.values_eq_cons
  have hstr : CString.ofBytes r.first.bytes = r.firstString := CString.ofBytes_bytes r.firstString
  simp only [tmdbQuery, TmdbBackend.query, TmdbBackend.insertRecord, hvalues, hstr,
    Bool.false_eq_true, ite_false]
  rfl

/-- and a read returns the first one stored. -/
theorem tmdbQuery_read (h : FirstStored Record.firstString done wt.db) (key : Int) :
    tmdbQuery cfg cache wt (.read key) =
      (match (Query.inserted done key).head? with
        | none => .error .nullString
        | some r => .ok (true, [r.first.bytes]), wt) := by
  simp only [tmdbQuery, TmdbBackend.query, TmdbBackend.readRecord, h key, Bool.false_eq_true,
    ite_false, ne_eq, not_true_eq_false]
  cases (Query.inserted done key).head? <;> rfl

/-- An insert of LevelDB stores the packed row, -/
theorem levelDBQuery_insert (key : Int) (r : Record cfg) :
    levelDBQuery cfg cache wl (.insert key r) = (.ok (true, []), { wl with
      db := Function.update wl.db (decimalInt key) (some (packValues r.values)) }) := by
  simp only [levelDBQuery, LevelDBBackend.query, LevelDBBackend.insertRecord,
    Bool.false_eq_true, ite_true, ite_false]

/-- and a read returns the latest one. -/
theorem levelDBQuery_read (h : LatestStored done wl.db) (key : Int) :
    levelDBQuery cfg cache wl (.read key) =
      (match (Query.inserted done key).getLast? with
        | none => .ok (false, [])
        | some r => .ok (true, r.values), wl) := by
  simp only [levelDBQuery, LevelDBBackend.query, LevelDBBackend.readRecord, h key,
    Bool.false_eq_true, ite_false, ne_eq, not_true_eq_false]
  cases (Query.inserted done key).getLast? with
  | none => rfl
  | some r => simp only [Option.map_some, Record.values, unpackValues_pack]

/-- A row inserted is the latest of its key. -/
theorem LatestStored.insert {db : List UInt8 → Option (List UInt8)} (h : LatestStored done db)
    (key : Int) (r : Record cfg) :
    LatestStored (done ++ [.insert key r])
      (Function.update db (decimalInt key) (some (packValues r.values))) := by
  intro key'
  by_cases hkey : key' = key
  · subst hkey
    rw [Function.update_self, Query.inserted_snoc_same, List.getLast?_concat, Option.map_some]
  · rw [Function.update_of_ne (decimalInt_injective.ne hkey), h key',
      Query.inserted_snoc_of_ne _ hkey]

/-- The two worlds keep to the same queries. -/
theorem SameQueries.query (h : SameQueries done wt wl) (q : Query (Record cfg)) :
    SameQueries (done ++ [q]) (tmdbQuery cfg cache wt q).2 (levelDBQuery cfg cache wl q).2 := by
  cases q with
  | insert key r =>
    rw [tmdbQuery_insert, levelDBQuery_insert]
    exact ⟨h.first.insert key r, h.latest.insert key r⟩
  | read key =>
    rw [tmdbQuery_read h.first, levelDBQuery_read h.latest]
    refine ⟨h.first.read key, fun key' => ?_⟩
    rw [h.latest key', Query.inserted_snoc_read]

/-- They answer a query alike exactly if only the first field tells. -/
theorem SameQueries.answer_eq_iff (h : SameQueries done wt wl) (q : Query (Record cfg)) :
    (tmdbQuery cfg cache wt q).1 = (levelDBQuery cfg cache wl q).1 ↔ FirstFieldOnly done q := by
  cases q with
  | insert key r =>
    rw [tmdbQuery_insert, levelDBQuery_insert]
    exact iff_of_true rfl trivial
  | read key =>
    rw [tmdbQuery_read h.first, levelDBQuery_read h.latest, FirstFieldOnly]
    cases hf : (Query.inserted done key).head? with
    | none => cases (Query.inserted done key).getLast? <;> simp
    | some first =>
      cases hl : (Query.inserted done key).getLast? with
      | none => simp
      | some latest => simp [← Record.values_eq_singleton, eq_comm]

end

/-- Both backends return the same booleans and results, if and only if every read is of a key
whose latest record is the single field its first record begins with. -/
theorem sameAnswers_iff_firstFieldOnly (cfg : Config) (cache : AutoIncCache)
    (qs : List (Query (Record cfg))) :
    Trace.outputs (tmdbQuery cfg cache) .initial qs =
        Trace.outputs (levelDBQuery cfg cache) LevelDB.empty qs ↔
      Trace.AtEach FirstFieldOnly qs := by
  apply Trace.outputs_eq_iff (R := SameQueries)
  · exact fun done wt wl q h _ => h.query q
  · exact fun done wt wl q h => h.answer_eq_iff q
  · exact ⟨fun _ => rfl, fun _ => rfl⟩

/-- A read of a key that was never inserted: one backend throws, the other returns false. -/
theorem not_sameAnswers_absent :
    Trace.outputs (tmdbQuery shipped (enableCache 0 0 .empty)) .initial [.read 7] ≠
      Trace.outputs (levelDBQuery shipped (enableCache 0 0 .empty)) LevelDB.empty
        [.read 7] := by
  decide +kernel

end CachelibArchive.Backend
