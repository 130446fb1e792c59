import CachelibArchive.Backend.AutoIncCache
import CachelibArchive.Backend.Record
import CachelibArchive.Core.Run

/-!
# LevelDBBackend

An insert writes the packed record to the database and then to the cache,
whatever became of the first. A read trusts the cache. The two agree as long as
every record that is cached has been stored, and every record that is stored
replaces what was cached under its key.
-/

namespace CachelibArchive.Backend

open ClientServer

/-- What a `LevelDBBackend` works on: the database, and the cache of the server. -/
structure LevelDB where
  db : List UInt8 → Option (List UInt8)
  server : Cache

/-- Nothing stored, nothing cached. -/
def LevelDB.empty : LevelDB := ⟨fun _ => none, fun _ => none⟩

/-- A `LevelDBBackend`. -/
structure LevelDBBackend where
  cache : AutoIncCache
  cacheEnabled : Bool

namespace LevelDBBackend

/-- `LevelDBBackend::read_record`: the results, or false. -/
def readRecord (cfg : Config) (b : LevelDBBackend) (w : LevelDB) (key : Int) (allocated : Bool) :
    Option (List (List UInt8)) × LevelDB :=
  let value := if b.cacheEnabled then b.cache.get_ w.server (decimalInt key) else []
  if value ≠ [] then (some (unpackValues value cfg.maxFieldSize), w)
  else match w.db (decimalInt key) with
    | none => (none, w)
    | some value =>
      let server := if b.cacheEnabled then
          (b.cache.set_ w.server (decimalInt key) value allocated).2
        else w.server
      (some (unpackValues value cfg.maxFieldSize), { w with server := server })

/-- `LevelDBBackend::insert_record`; `putOk` is the status of the `Put`. -/
def insertRecord (b : LevelDBBackend) (w : LevelDB) (key : Int) (values : List (List UInt8))
    (putOk allocated : Bool) : Bool × LevelDB :=
  let value := packValues values
  let db := if putOk then Function.update w.db (decimalInt key) (some value) else w.db
  let server := if b.cacheEnabled then
      (b.cache.set_ w.server (decimalInt key) value allocated).2
    else w.server
  (putOk, ⟨db, server⟩)

/-- One query; every `Put` succeeds and the cache server has memory for what it is sent. -/
def query {V : Type} (cfg : Config) (values : V → List (List UInt8)) (b : LevelDBBackend)
    (w : LevelDB) : Query V → Answer × LevelDB
  | .insert key v =>
    let (ok, w) := b.insertRecord w key (values v) true true
    (.ok (ok, []), w)
  | .read key =>
    match b.readRecord cfg w key true with
    | (none, w) => (.ok (false, []), w)
    | (some results, w) => (.ok (true, results), w)

end LevelDBBackend

namespace LevelDB

variable {cfg : Config}

/-- A call on the backend, with what the database and the cache make of it, or an eviction. -/
inductive Op (cfg : Config)
  | insert (key : Int) (values : List (Field cfg)) (putOk allocated : Bool)
  | read (key : Int) (allocated : Bool)
  | evict (key : CString)

/-- Database and cache, and for every key the record of the latest insert that returned true. -/
structure State (cfg : Config) where
  stores : LevelDB
  committed : Int → Option (List (Field cfg))

/-- Nothing stored, nothing cached, nothing committed. -/
def initial : State cfg := ⟨.empty, fun _ => none⟩

/-- One call on a backend whose cache is enabled, or one eviction. -/
def step (cache : AutoIncCache) (s : State cfg) : Op cfg → Option (State cfg)
  | .insert key values putOk allocated =>
    let (ok, stores) := LevelDBBackend.insertRecord ⟨cache, true⟩ s.stores key (strings values)
      putOk allocated
    some ⟨stores, if ok then Function.update s.committed key (some values) else s.committed⟩
  | .read key allocated =>
    some { s with stores := (LevelDBBackend.readRecord cfg ⟨cache, true⟩ s.stores key allocated).2 }
  | .evict key => some { s with stores := { s.stores with server := evict s.stores.server key } }

/-- Every read made now returns the record of the latest insert that returned true, and
false if there was none. -/
def ReadsCommitted (cache : AutoIncCache) (s : State cfg) : Prop :=
  ∀ (key : Int) (allocated : Bool),
    (LevelDBBackend.readRecord cfg ⟨cache, true⟩ s.stores key allocated).1 =
      (s.committed key).map strings

/-- The condition on an insert: a record the cache takes is stored or is what was stored, and
a stored record the cache does not take finds nothing else cached under its key. -/
def Coherent (cache : AutoIncCache) (s : State cfg) : Op cfg → Prop
  | .insert key values putOk allocated =>
    let value := packValues (strings values)
    (AutoIncCache.Takes value allocated → putOk = false →
      value = [] ∨ s.committed key = some values) ∧
    (¬AutoIncCache.Takes value allocated → putOk = true →
      ∀ old ∈ cache.entry s.stores.server (decimalInt key), old = [] ∨ old = value)
  | .read .. | .evict _ => True

/-! ## The invariant -/

/-- The packed form of the record committed under a key. -/
def State.packed (s : State cfg) (key : Int) : Option (List UInt8) :=
  (s.committed key).map fun values => packValues (strings values)

/-- The database holds what was committed. -/
def Stored (s : State cfg) : Prop := ∀ key, s.stores.db (decimalInt key) = s.packed key

/-- Nothing but what was committed is cached. -/
def Cached (cache : AutoIncCache) (s : State cfg) : Prop :=
  ∀ key, ∀ v ∈ cache.entry s.stores.server (decimalInt key), v = [] ∨ s.packed key = some v

variable {cache : AutoIncCache} {s t : State cfg}

theorem read_of_hit {key : Int} {v : List UInt8}
    (hv : cache.entry s.stores.server (decimalInt key) = some v) (hne : v ≠ [])
    (allocated : Bool) :
    LevelDBBackend.readRecord cfg ⟨cache, true⟩ s.stores key allocated =
      (some (unpackValues v cfg.maxFieldSize), s.stores) := by
  simp only [LevelDBBackend.readRecord, AutoIncCache.get_of_entry hv, ite_true, if_pos hne]

/-- A read that misses goes to the database, and caches what it finds there. -/
theorem read_of_miss {key : Int}
    (hmiss : ∀ v ∈ cache.entry s.stores.server (decimalInt key), v = []) (allocated : Bool) :
    LevelDBBackend.readRecord cfg ⟨cache, true⟩ s.stores key allocated =
      match s.stores.db (decimalInt key) with
      | none => (none, s.stores)
      | some value => (some (unpackValues value cfg.maxFieldSize), { s.stores with
          server := (cache.set_ s.stores.server (decimalInt key) value allocated).2 }) := by
  simp only [LevelDBBackend.readRecord, AutoIncCache.get_of_miss hmiss, ite_true, ne_eq,
    not_true_eq_false, ite_false]

theorem Cached.readsCommitted (hc : Cached cache s) (hs : Stored s) : ReadsCommitted cache s := by
  intro key allocated
  have hstored := hs key
  by_cases hmiss : ∀ v ∈ cache.entry s.stores.server (decimalInt key), v = []
  · rw [read_of_miss hmiss, hstored, State.packed]
    cases s.committed key with
    | none => rfl
    | some values => exact congrArg some (unpackValues_pack values)
  · push Not at hmiss
    obtain ⟨v, hv, hne⟩ := hmiss
    obtain ⟨values, hcommitted, rfl⟩ :=
      Option.map_eq_some_iff.mp ((hc key v hv).resolve_left hne)
    rw [read_of_hit hv hne, hcommitted, Option.map_some, unpackValues_pack]

/-- A cached record that is read as the committed one is its packed form. -/
theorem ReadsCommitted.cached (hr : ReadsCommitted cache s) : Cached cache s := by
  intro key v hv
  by_cases hne : v = []
  · exact .inl hne
  · right
    have hread := hr key true
    rw [read_of_hit hv hne] at hread
    obtain ⟨values, hcommitted, hstrings⟩ := Option.map_eq_some_iff.mp hread.symm
    rw [State.packed, hcommitted, Option.map_some, hstrings, pack_unpack cfg.size_pos]

/-! ## Steps -/

/-- The state after an insert. -/
abbrev inserted (cache : AutoIncCache) (s : State cfg) (key : Int) (values : List (Field cfg))
    (putOk allocated : Bool) : State cfg :=
  let value := packValues (strings values)
  ⟨⟨if putOk then Function.update s.stores.db (decimalInt key) (some value) else s.stores.db,
      (cache.set_ s.stores.server (decimalInt key) value allocated).2⟩,
    if putOk then Function.update s.committed key (some values) else s.committed⟩

theorem step_insert (key : Int) (values : List (Field cfg)) (putOk allocated : Bool) :
    step cache s (.insert key values putOk allocated) =
      some (inserted cache s key values putOk allocated) := rfl

theorem packed_inserted_same (key : Int) (values : List (Field cfg)) (putOk allocated : Bool) :
    (inserted cache s key values putOk allocated).packed key =
      if putOk then some (packValues (strings values)) else s.packed key := by
  cases putOk with
  | false => rfl
  | true => simp [State.packed]

theorem packed_inserted_of_ne {key key' : Int} (hne : key' ≠ key) (values : List (Field cfg))
    (putOk allocated : Bool) :
    (inserted cache s key values putOk allocated).packed key' = s.packed key' := by
  cases putOk with
  | false => rfl
  | true => simp [State.packed, hne]

theorem Stored.insert (hs : Stored s) (key : Int) (values : List (Field cfg))
    (putOk allocated : Bool) : Stored (inserted cache s key values putOk allocated) := by
  intro key'
  by_cases hkey : key' = key
  · subst hkey
    rw [packed_inserted_same, ← hs key']
    cases putOk with
    | false => rfl
    | true => exact Function.update_self ..
  · rw [packed_inserted_of_ne hkey, ← hs key']
    cases putOk with
    | false => rfl
    | true => exact Function.update_of_ne (decimalInt_injective.ne hkey) ..

/-- Packing tells records apart. -/
theorem packed_eq_iff {key : Int} {values : List (Field cfg)} :
    s.packed key = some (packValues (strings values)) ↔ s.committed key = some values := by
  rw [State.packed, Option.map_eq_some_iff]
  constructor
  · rintro ⟨values', hcommitted, heq⟩
    rw [hcommitted, strings_eq_of_pack heq]
  · exact fun hcommitted => ⟨values, hcommitted, rfl⟩

/-- Only the entry of the key itself can go wrong with an insert. -/
theorem Cached.insert_iff_entry (hc : Cached cache s) (key : Int) (values : List (Field cfg))
    (putOk allocated : Bool) :
    Cached cache (inserted cache s key values putOk allocated) ↔
      ∀ v ∈ cache.entry (inserted cache s key values putOk allocated).stores.server
        (decimalInt key),
        v = [] ∨ (inserted cache s key values putOk allocated).packed key = some v := by
  refine ⟨fun h => h key, fun h key' v hv => ?_⟩
  by_cases hkey : key' = key
  · subst hkey
    exact h v hv
  · rw [cache.entry_set_decimal_of_ne _ hkey] at hv
    rw [packed_inserted_of_ne hkey]
    exact hc key' v hv

/-- An insert keeps the cache to what is committed exactly if it is coherent. -/
theorem Cached.insert_iff (hc : Cached cache s) (key : Int) (values : List (Field cfg))
    (putOk allocated : Bool) :
    Cached cache (inserted cache s key values putOk allocated) ↔
      Coherent cache s (.insert key values putOk allocated) := by
  have hsame := cache.entry_set_same s.stores.server (decimalInt key) (zero_not_mem_pack values)
    allocated
  rw [hc.insert_iff_entry, hsame, packed_inserted_same, Coherent]
  by_cases ht : AutoIncCache.Takes (packValues (strings values)) allocated
  · cases putOk with
    | false => simp [ht, packed_eq_iff]
    | true => simp [ht]
  · cases putOk with
    | false =>
      simp only [ht, Bool.false_eq_true, ite_false, IsEmpty.forall_iff, not_false_eq_true,
        forall_const, and_self, iff_true]
      exact hc key
    | true =>
      rw [if_neg ht, if_pos rfl]
      constructor
      · intro h
        refine ⟨fun ht' => absurd ht' ht, fun _ _ old hold => ?_⟩
        exact (h old hold).imp_right fun heq => (Option.some.inj heq).symm
      · intro h v hv
        exact (h.2 ht rfl v hv).imp_right fun heq => congrArg some heq.symm

/-- A read caches what is stored. -/
theorem Cached.read (hc : Cached cache s) (hs : Stored s) (key : Int) (allocated : Bool) :
    Cached cache { s with
      stores := (LevelDBBackend.readRecord cfg ⟨cache, true⟩ s.stores key allocated).2 } ∧
    (LevelDBBackend.readRecord cfg ⟨cache, true⟩ s.stores key allocated).2.db = s.stores.db := by
  by_cases hmiss : ∀ v ∈ cache.entry s.stores.server (decimalInt key), v = []
  · rw [read_of_miss hmiss]
    have hstored := hs key
    cases hdb : s.stores.db (decimalInt key) with
    | none => exact ⟨hc, rfl⟩
    | some value =>
      refine ⟨fun key' v hv => ?_, rfl⟩
      rw [hdb] at hstored
      by_cases hkey : key' = key
      · subst hkey
        obtain ⟨values, _, rfl⟩ := Option.map_eq_some_iff.mp hstored.symm
        rw [cache.entry_set_same _ _ (zero_not_mem_pack values)] at hv
        split at hv
        · cases hv
          exact .inr hstored.symm
        · exact hc key' v hv
      · rw [cache.entry_set_decimal_of_ne _ hkey] at hv
        exact hc key' v hv
  · push Not at hmiss
    obtain ⟨v, hv, hne⟩ := hmiss
    rw [read_of_hit hv hne]
    exact ⟨hc, rfl⟩

theorem Cached.evict (hc : Cached cache s) (k : CString) :
    Cached cache
      { s with stores := { s.stores with server := Backend.evict s.stores.server k } } := by
  intro key v hv
  rcases cache.entry_evict s.stores.server [k] (decimalInt key) with hnone | hsame
  · exact nomatch hnone.symm.trans hv
  · exact hc key v (hsame.symm.trans hv)

/-- The database part of the invariant needs no condition. -/
theorem Stored.step {op : Op cfg} (hs : Stored s) (hc : Cached cache s)
    (h : LevelDB.step cache s op = some t) : Stored t := by
  cases op with
  | insert key values putOk allocated =>
    rw [step_insert] at h
    cases h
    exact hs.insert key values putOk allocated
  | read key allocated =>
    cases h
    intro key'
    dsimp only
    rw [(hc.read hs key allocated).2]
    exact hs key'
  | evict key =>
    cases h
    exact hs

/-- In every state of a run every read returns the record of the latest insert that returned
true, if and only if every insert of the run is coherent. -/
theorem readsCommitted_iff_coherent (cfg : Config) (cache : AutoIncCache) (ops : List (Op cfg)) :
    Run.Always (step cache) (ReadsCommitted cache) initial ops ↔
      Run.EachStep (step cache) (Coherent cache) initial ops := by
  apply Run.always_iff_eachStep (I := fun s => Stored s ∧ Cached cache s)
  · exact fun s hs => hs.2.readsCommitted hs.1
  · rintro s op t ⟨hs, hc⟩ hop h
    refine ⟨hs.step hc h, ?_⟩
    cases op with
    | insert key values putOk allocated =>
      rw [step_insert] at h
      cases h
      exact (hc.insert_iff key values putOk allocated).mpr hop
    | read key allocated =>
      cases h
      exact (hc.read hs key allocated).1
    | evict key =>
      cases h
      exact hc.evict key
  · rintro s op t ⟨_, hc⟩ h hr
    cases op with
    | insert key values putOk allocated =>
      rw [step_insert] at h
      cases h
      exact (hc.insert_iff key values putOk allocated).mp hr.cached
    | read | evict => trivial
  · exact ⟨fun _ => rfl, fun _ _ hv => nomatch hv⟩

/-- A record whose `Put` failed is read from the cache. -/
theorem not_readsCommitted_failedPut :
    ¬Run.Always (step (enableCache 0 0 .empty)) (ReadsCommitted (enableCache 0 0 .empty))
      initial [.insert 1000 [letters 65 (by decide)] false true] := by
  intro h
  have hread := h.last rfl 1000 true
  revert hread
  decide +kernel

end LevelDB

end CachelibArchive.Backend
