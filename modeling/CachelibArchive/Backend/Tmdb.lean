import CachelibArchive.Backend.AutoIncCache
import CachelibArchive.Backend.Record
import CachelibArchive.Core.Trace
import CachelibArchive.Tmdb.Contents

/-!
# TmdbBackend

An insert overwrites the cached string of its key; the store behind it keeps the
first string a key was given. A read takes what is cached, and otherwise asks
the store and turns its answer into a string, also when that is the null pointer.
-/

namespace CachelibArchive.Backend

open ClientServer

/-! ## The store as a map -/

/-- `tdb_store` with `TDB_INSERT`, on the map the two files represent. -/
def tdbStore (db : CString → Option CString) (key value : CString) : CString → Option CString :=
  if (db key).isSome then db else Function.update db key (some value)

/-- The files of the store represent the map, as far as its keys go. -/
def Represents (s : Tmdb.State) (db : CString → Option CString) : Prop :=
  ∃ m, Tmdb.Rep s m ∧ ∀ k : Tmdb.Key, db k.str = (m k).map Tmdb.Value.str

/-- An insert into the files is an insert into the map. -/
theorem Represents.store {s s' : Tmdb.State} {db : CString → Option CString}
    (h : Represents s db) {k : Tmdb.Key} {v : Tmdb.Value} {pad : UInt32}
    (hstep : Tmdb.step s (.store .insert k v pad) = some s') :
    Represents s' (tdbStore db k.str v.str) := by
  obtain ⟨m, hr, hm⟩ := h
  refine ⟨_, hr.step_insert hstep, fun k' => ?_⟩
  have hk := hm k
  rw [tdbStore, hk]
  cases hmk : m k with
  | some w =>
    rw [Option.map_some, Option.isSome_some, if_pos rfl, hm k']
    by_cases hkk : k = k'
    · subst hkk
      rw [hmk, Option.some_or]
    · rw [Tmdb.Op.inserts, if_neg hkk, Option.or_none]
  | none =>
    rw [Option.map_none, Option.isSome_none, if_neg Bool.false_ne_true]
    by_cases hkk : k = k'
    · subst hkk
      rw [Function.update_self, hmk, Option.none_or, Tmdb.Op.inserts, if_pos rfl, Option.map_some]
    · have hne : k'.str ≠ k.str := fun heq => hkk (Tmdb.Key.ext (congrArg CString.bytes heq.symm))
      rw [Function.update_of_ne hne, hm k', Tmdb.Op.inserts, if_neg hkk, Option.or_none]

/-- A fetch from the files is a lookup in the map. -/
theorem Represents.fetch {s : Tmdb.State} {db : CString → Option CString} (h : Represents s db)
    (k : Tmdb.Key) : ∃ tdb, Tmdb.dbFetch s.db k.str = (.ok (db k.str), tdb) := by
  obtain ⟨m, hr, hm⟩ := h
  obtain ⟨tdb, hf, _⟩ := hr.fetch k
  exact ⟨tdb, by rw [hf, hm k]⟩

/-! ## The backend -/

/-- What a `TmdbBackend` works on: the store, and the cache of the server. -/
structure TmdbStores where
  db : CString → Option CString
  server : Cache

/-- Nothing stored, nothing cached. -/
def TmdbStores.initial : TmdbStores := ⟨fun _ => none, fun _ => none⟩

/-- A `TmdbBackend`. -/
structure TmdbBackend where
  cache : AutoIncCache
  cacheEnabled : Bool

/-- `std::to_string(key).c_str()`. -/
def keyString (key : Int) : CString := ⟨decimalInt key, zero_not_mem_decimalInt key⟩

theorem keyString_injective : Function.Injective keyString := fun _ _ h =>
  decimalInt_injective (congrArg CString.bytes h)

namespace TmdbBackend

/-- `TmdbBackend::insert_record`; the status of the store is dropped. -/
def insertRecord (b : TmdbBackend) (w : TmdbStores) (key : Int) (values : List (List UInt8))
    (allocated : Bool) : Except Thrown Bool × TmdbStores :=
  match values with
  | [] => (.error .noField, w)
  | value :: _ =>
    let server := if b.cacheEnabled then
        (b.cache.set_ w.server (decimalInt key) value allocated).2
      else w.server
    (.ok true, ⟨tdbStore w.db (keyString key) (.ofBytes value), server⟩)

/-- `TmdbBackend::read_record`: the string pushed on the results. -/
def readRecord (b : TmdbBackend) (w : TmdbStores) (key : Int) (allocated : Bool) :
    Except Thrown (List (List UInt8)) × TmdbStores :=
  let value := if b.cacheEnabled then b.cache.get_ w.server (decimalInt key) else []
  if value ≠ [] then (.ok [value], w)
  else match w.db (keyString key) with
    | none => (.error .nullString, w)
    | some valueInDisk =>
      let server := if b.cacheEnabled then
          (b.cache.set_ w.server (decimalInt key) valueInDisk.bytes allocated).2
        else w.server
      (.ok [valueInDisk.bytes], { w with server := server })

/-- One query; the cache server has memory for what it is sent. -/
def query {V : Type} (values : V → List (List UInt8)) (b : TmdbBackend) (w : TmdbStores) :
    Query V → Answer × TmdbStores
  | .insert key v =>
    let (r, w) := b.insertRecord w key (values v) true
    (r.map fun ok => (ok, []), w)
  | .read key =>
    let (r, w) := b.readRecord w key true
    (r.map fun results => (true, results), w)

end TmdbBackend

/-- Inserting into the map, seen under one key. -/
theorem tdbStore_same (db : CString → Option CString) (key value : CString) :
    tdbStore db key value key = (db key).or (some value) := by
  rw [tdbStore]
  cases h : db key with
  | none => rw [Option.isSome_none, if_neg Bool.false_ne_true, Function.update_self, Option.none_or]
  | some v => rw [Option.isSome_some, if_pos rfl, h, Option.some_or]

theorem tdbStore_of_ne (db : CString → Option CString) {key key' : CString} (hne : key' ≠ key)
    (value : CString) : tdbStore db key value key' = db key' := by
  rw [tdbStore]
  split
  · rfl
  · exact Function.update_of_ne hne ..

section FirstStored

variable {V : Type} {str : V → CString} {done : List (Query V)} {db : CString → Option CString}

/-- The store holds, under every key, the string of the first value inserted. -/
def FirstStored (str : V → CString) (done : List (Query V)) (db : CString → Option CString) :
    Prop :=
  ∀ key, db (keyString key) = (Query.inserted done key).head?.map str

theorem FirstStored.insert (h : FirstStored str done db) (key : Int) (v : V) :
    FirstStored str (done ++ [.insert key v]) (tdbStore db (keyString key) (str v)) := by
  intro key'
  by_cases hkey : key' = key
  · subst hkey
    rw [tdbStore_same, h key', Query.inserted_snoc_same]
    cases Query.inserted done key' <;> rfl
  · have hne : keyString key' ≠ keyString key := fun heq => hkey (keyString_injective heq)
    rw [tdbStore_of_ne _ hne, h key', Query.inserted_snoc_of_ne _ hkey]

theorem FirstStored.read (h : FirstStored str done db) (key : Int) :
    FirstStored str (done ++ [.read key]) db := by
  intro key'
  rw [h key', Query.inserted_snoc_read]

end FirstStored

/-! ## With and without the cache -/

/-- A single-field value: not empty, and within the limits of store and cache. -/
structure Payload where
  value : Tmdb.Value
  pos : value.str.bytes ≠ []

/-- The string of a value. -/
def Payload.bytes (p : Payload) : List UInt8 := p.value.str.bytes

theorem Payload.text (p : Payload) : 0 ∉ p.bytes := p.value.str.nul_free

theorem Payload.bytes_injective : Function.Injective Payload.bytes := by
  rintro ⟨v, _⟩ ⟨v', _⟩ h
  obtain rfl := Tmdb.Value.ext (CString.ext h)
  rfl

/-- Every value reaches the cache if there is memory for it. -/
theorem Payload.takes (p : Payload) : AutoIncCache.Takes p.bytes true := by
  have hshort := p.value.short
  simp only [CString.length, Tmdb.tdbMaxRecordLen] at hshort
  refine ⟨?_, rfl⟩
  simp only [Payload.bytes, AutoIncCache.maxValueSize]
  omega

/-- One query with a single-field value. -/
abbrev TmdbBackend.answer (b : TmdbBackend) (w : TmdbStores) (q : Query Payload) :
    Answer × TmdbStores :=
  b.query (fun p => [p.bytes]) w q

/-- One query on the cached backend, after the server has dropped some items. -/
def cachedAnswer (cache : AutoIncCache) (w : TmdbStores) (q : List CString × Query Payload) :
    Answer × TmdbStores :=
  TmdbBackend.answer ⟨cache, true⟩ { w with server := q.1.foldl evict w.server } q.2

/-- Whatever the server drops between the queries, they are answered as without the cache. -/
def Transparent (cache : AutoIncCache) (qs : List (Query Payload)) : Prop :=
  ∀ schedule : List (List CString × Query Payload), schedule.map Prod.snd = qs →
    Trace.outputs (cachedAnswer cache) .initial schedule =
      Trace.outputs (TmdbBackend.answer ⟨cache, false⟩) .initial qs

/-- The condition on a read: the latest value inserted under its key is the first one. -/
def LatestIsFirst (before : List (Query Payload)) : Query Payload → Prop
  | .insert .. => True
  | .read key => (Query.inserted before key).getLast? = (Query.inserted before key).head?

theorem answer_insert (b : TmdbBackend) (w : TmdbStores) (key : Int) (p : Payload) :
    b.answer w (.insert key p) = (.ok (true, []), ⟨tdbStore w.db (keyString key) p.value.str,
      if b.cacheEnabled then (b.cache.set_ w.server (decimalInt key) p.bytes true).2
      else w.server⟩) := by
  simp only [TmdbBackend.query, TmdbBackend.insertRecord, Payload.bytes, CString.ofBytes_bytes]
  rfl

theorem answer_read_hit {cache : AutoIncCache} {w : TmdbStores} {key : Int} {v : List UInt8}
    (hv : cache.entry w.server (decimalInt key) = some v) (hne : v ≠ []) :
    TmdbBackend.answer ⟨cache, true⟩ w (.read key) = (.ok (true, [v]), w) := by
  simp only [TmdbBackend.query, TmdbBackend.readRecord, AutoIncCache.get_of_entry hv, ite_true,
    if_pos hne]
  rfl

theorem answer_read_miss {b : TmdbBackend} {w : TmdbStores} {key : Int}
    (hmiss : b.cacheEnabled = true → b.cache.entry w.server (decimalInt key) = none) :
    b.answer w (.read key) = match w.db (keyString key) with
      | none => (.error .nullString, w)
      | some v => (.ok (true, [v.bytes]), { w with
          server := if b.cacheEnabled then
              (b.cache.set_ w.server (decimalInt key) v.bytes true).2
            else w.server }) := by
  obtain ⟨cache, cacheEnabled⟩ := b
  have hget : (if cacheEnabled then cache.get_ w.server (decimalInt key) else []) = [] := by
    cases cacheEnabled with
    | false => rfl
    | true =>
      rw [if_pos rfl, cache.get_eq, hmiss rfl]
      rfl
  simp only [TmdbBackend.query, TmdbBackend.readRecord, hget, ne_eq, not_true_eq_false,
    ite_false]
  cases w.db (keyString key) <;> rfl

/-! ## Comparing the two -/

/-- A relation between the values inserted under a key and what is cached for it, kept by the
queries on that key. -/
structure Keeps (K : List Payload → Option (List UInt8) → Prop) : Prop where
  hit : ∀ vs v, K vs (some v) → v ≠ []
  insert : ∀ vs p, K (vs ++ [p]) (some p.bytes)
  miss : ∀ vs, K vs none → K vs (vs.head?.map Payload.bytes)

/-- Two backends after the same queries, one of them cached. -/
structure Related (cache : AutoIncCache) (K : List Payload → Option (List UInt8) → Prop)
    (done : List (Query Payload)) (wc wp : TmdbStores) : Prop where
  db : wc.db = wp.db
  first : FirstStored (fun p => p.value.str) done wp.db
  cached : ∀ key, K (Query.inserted done key) (cache.entry wc.server (decimalInt key))

section Related

variable {cache : AutoIncCache} {K : List Payload → Option (List UInt8) → Prop}
  {done : List (Query Payload)} {wc wp : TmdbStores}

theorem Related.plain_read (h : Related cache K done wc wp) (key : Int) :
    TmdbBackend.answer ⟨cache, false⟩ wp (.read key) =
      (match (Query.inserted done key).head? with
        | none => .error .nullString
        | some p => .ok (true, [p.bytes]), wp) := by
  rw [answer_read_miss fun hf => absurd hf Bool.false_ne_true, h.first key]
  cases (Query.inserted done key).head? <;> rfl

/-- The cached read, if it misses, is the other one, and caches what it returns. -/
theorem Related.cached_read (h : Related cache K done wc wp) {key : Int}
    (hmiss : cache.entry wc.server (decimalInt key) = none) :
    TmdbBackend.answer ⟨cache, true⟩ wc (.read key) =
      match (Query.inserted done key).head? with
      | none => (.error .nullString, wc)
      | some p => (.ok (true, [p.bytes]), { wc with
          server := (cache.set_ wc.server (decimalInt key) p.bytes true).2 }) := by
  rw [answer_read_miss (b := ⟨cache, true⟩) (w := wc) fun _ => hmiss, h.db, h.first key]
  cases (Query.inserted done key).head? <;> rfl

/-- The entries after a value was cached, which it always is. -/
theorem entry_set_payload (cache : AutoIncCache) (server : Cache) (key key' : Int) (p : Payload) :
    cache.entry (cache.set_ server (decimalInt key) p.bytes true).2 (decimalInt key') =
      if key' = key then some p.bytes else cache.entry server (decimalInt key') := by
  by_cases hkey : key' = key
  · subst hkey
    rw [cache.entry_set_same _ _ p.text, if_pos p.takes, if_pos rfl]
  · rw [if_neg hkey, cache.entry_set_decimal_of_ne _ hkey]

theorem Related.answer (hK : Keeps K) (h : Related cache K done wc wp) (q : Query Payload) :
    Related cache K (done ++ [q]) (TmdbBackend.answer ⟨cache, true⟩ wc q).2
      (TmdbBackend.answer ⟨cache, false⟩ wp q).2 := by
  cases q with
  | insert key p =>
    rw [answer_insert, answer_insert]
    refine ⟨congrArg (tdbStore · (keyString key) p.value.str) h.db, h.first.insert key p, ?_⟩
    intro key'
    simp only [ite_true, entry_set_payload]
    by_cases hkey : key' = key
    · subst hkey
      rw [if_pos rfl, Query.inserted_snoc_same]
      exact hK.insert ..
    · rw [if_neg hkey, Query.inserted_snoc_of_ne _ hkey]
      exact h.cached key'
  | read key =>
    rw [h.plain_read key]
    have hsame := Query.inserted_snoc_read done key
    cases he : cache.entry wc.server (decimalInt key) with
    | some v =>
      have hne := hK.hit _ _ (he ▸ h.cached key)
      rw [answer_read_hit he hne]
      refine ⟨h.db, h.first.read key, fun key' => ?_⟩
      rw [hsame]
      exact h.cached key'
    | none =>
      rw [h.cached_read he]
      cases hf : (Query.inserted done key).head? with
      | none =>
        refine ⟨h.db, h.first.read key, fun key' => ?_⟩
        rw [hsame]
        exact h.cached key'
      | some p =>
        refine ⟨h.db, h.first.read key, fun key' => ?_⟩
        dsimp only
        rw [entry_set_payload, hsame]
        by_cases hkey : key' = key
        · subst hkey
          have hmiss := hK.miss _ (he ▸ h.cached key')
          rwa [if_pos rfl, ← Option.map_some, ← hf]
        · rw [if_neg hkey]
          exact h.cached key'

/-- The two backends answer alike unless a read finds something else cached than is stored. -/
theorem Related.answer_eq_iff (hK : Keeps K) (h : Related cache K done wc wp) (q : Query Payload) :
    (TmdbBackend.answer ⟨cache, true⟩ wc q).1 = (TmdbBackend.answer ⟨cache, false⟩ wp q).1 ↔
      ∀ key, q = .read key → ∀ v ∈ cache.entry wc.server (decimalInt key),
        (Query.inserted done key).head?.map Payload.bytes = some v := by
  cases q with
  | insert key p =>
    rw [answer_insert, answer_insert]
    exact iff_of_true rfl fun _ hq => nomatch hq
  | read key =>
    rw [h.plain_read key]
    cases he : cache.entry wc.server (decimalInt key) with
    | some v =>
      have hne := hK.hit _ _ (he ▸ h.cached key)
      have hcond : (∀ key', Query.read (V := Payload) key = .read key' →
          ∀ v ∈ cache.entry wc.server (decimalInt key'),
            (Query.inserted done key').head?.map Payload.bytes = some v) ↔
          (Query.inserted done key).head?.map Payload.bytes = some v := by
        simp [he]
      rw [hcond, answer_read_hit he hne]
      cases (Query.inserted done key).head? with
      | none => simp
      | some p => simp [eq_comm]
    | none =>
      rw [h.cached_read he]
      refine iff_of_true ?_ ?_
      · cases (Query.inserted done key).head? <;> rfl
      · rintro key' hq v hv
        cases hq
        rw [he] at hv
        cases hv

/-- Evictions, for a relation that holds of nothing cached. -/
theorem Related.evict (hnone : ∀ vs, K vs none) (h : Related cache K done wc wp)
    (ks : List CString) :
    Related cache K done { wc with server := ks.foldl Backend.evict wc.server } wp := by
  refine ⟨h.db, h.first, fun key => ?_⟩
  rcases cache.entry_evict wc.server ks (decimalInt key) with he | he <;> rw [he]
  · exact hnone _
  · exact h.cached key

end Related

/-- With evictions: what is cached, if anything, is the first or the latest value. -/
def FirstOrLatest (vs : List Payload) (e : Option (List UInt8)) : Prop :=
  ∀ v ∈ e, ∃ p : Payload, p.bytes = v ∧ (vs.head? = some p ∨ vs.getLast? = some p)

theorem keeps_firstOrLatest : Keeps FirstOrLatest := by
  refine ⟨?_, ?_, ?_⟩
  · intro vs v h
    obtain ⟨p, rfl, _⟩ := h v rfl
    exact p.pos
  · rintro vs p v ⟨⟩
    exact ⟨p, rfl, .inr List.getLast?_concat⟩
  · intro vs _ v hv
    obtain ⟨p, hp, rfl⟩ := Option.map_eq_some_iff.mp hv
    exact ⟨p, rfl, .inl hp⟩

/-- Without evictions: the latest value is cached. -/
def Latest (vs : List Payload) (e : Option (List UInt8)) : Prop :=
  e = vs.getLast?.map Payload.bytes

theorem keeps_latest : Keeps Latest := by
  refine ⟨?_, ?_, ?_⟩
  · intro vs v h
    obtain ⟨p, _, rfl⟩ := Option.map_eq_some_iff.mp h.symm
    exact p.pos
  · intro vs p
    rw [Latest, List.getLast?_concat, Option.map_some]
  · intro vs h
    rw [List.getLast?_eq_none_iff.mp (Option.map_eq_none_iff.mp h.symm)]
    rfl

theorem related_initial (cache : AutoIncCache) {K : List Payload → Option (List UInt8) → Prop}
    (hnone : K [] none) : Related cache K [] .initial .initial :=
  ⟨rfl, fun _ => rfl, fun _ => hnone⟩

/-- Where the latest value is cached, a read shows whether it is the first. -/
theorem Related.answer_iff_latest {cache : AutoIncCache} {done : List (Query Payload)}
    {wc wp : TmdbStores} (h : Related cache Latest done wc wp) (q : Query Payload) :
    (TmdbBackend.answer ⟨cache, true⟩ wc q).1 = (TmdbBackend.answer ⟨cache, false⟩ wp q).1 ↔
      LatestIsFirst done q := by
  refine (h.answer_eq_iff keeps_latest q).trans ?_
  cases q with
  | insert key p => exact iff_of_true (fun _ hq => nomatch hq) trivial
  | read key =>
    have hlatest := h.cached key
    rw [Latest] at hlatest
    rw [LatestIsFirst]
    constructor
    · intro hall
      specialize hall key rfl
      rw [hlatest] at hall
      cases hl : (Query.inserted done key).getLast? with
      | none => rw [List.getLast?_eq_none_iff.mp hl, List.head?_nil]
      | some p =>
        rw [hl] at hall
        have hp := hall p.bytes rfl
        rw [← Option.map_some] at hp
        exact (Option.map_injective Payload.bytes_injective hp).symm
    · rintro heq key' hq v hv
      cases hq
      rw [hlatest, heq] at hv
      exact hv

/-- Where the latest value is the first, it does not matter which of them is cached. -/
theorem Related.answer_of_latestIsFirst {cache : AutoIncCache} {done : List (Query Payload)}
    {wc wp : TmdbStores} (h : Related cache FirstOrLatest done wc wp) {q : Query Payload}
    (hq : LatestIsFirst done q) :
    (TmdbBackend.answer ⟨cache, true⟩ wc q).1 = (TmdbBackend.answer ⟨cache, false⟩ wp q).1 := by
  apply (h.answer_eq_iff keeps_firstOrLatest q).mpr
  rintro key rfl v hv
  obtain ⟨p, rfl, hfirst | hlast⟩ := h.cached key v hv
  · rw [hfirst, Option.map_some]
  · rw [LatestIsFirst] at hq
    rw [← hq, hlast, Option.map_some]

/-- The cache is transparent under every schedule of evictions, if and only if every read is
of a key whose latest value is its first. -/
theorem transparent_iff_latestIsFirst (cache : AutoIncCache) (qs : List (Query Payload)) :
    Transparent cache qs ↔ Trace.AtEach LatestIsFirst qs := by
  constructor
  · intro h
    -- a schedule without evictions shows every difference
    have houtputs := h (qs.map fun q => ([], q)) (by simp [Function.comp_def])
    rw [← Trace.outputs_map (cachedAnswer cache) (fun q => ([], q))] at houtputs
    refine (Trace.outputs_eq_iff (R := Related cache Latest) ?_ ?_
      (related_initial cache rfl) qs).mp houtputs
    · exact fun done wc wp q hr _ => hr.answer keeps_latest q
    · exact fun done wc wp q hr => hr.answer_iff_latest q
  · rintro h schedule rfl
    rw [← Trace.outputs_map (TmdbBackend.answer ⟨cache, false⟩) Prod.snd]
    rw [Trace.atEach_map] at h
    have hstart : Related cache FirstOrLatest [] .initial .initial :=
      related_initial cache fun _ hv => nomatch hv
    refine Trace.outputs_eq_of_atEach (R := fun done => Related cache FirstOrLatest
      (done.map Prod.snd)) ?_ hstart h
    rintro done wc wp ⟨ks, q⟩ hr hq
    have hevicted := hr.evict (fun _ _ hv => nomatch hv) ks
    have hkeep := hevicted.answer keeps_firstOrLatest q
    rw [List.map_append]
    exact ⟨hevicted.answer_of_latestIsFirst hq, hkeep⟩

/-- The values of two inserts of one key. -/
def payloadX : Payload := ⟨Tmdb.valueX, by decide⟩
def payloadY : Payload := ⟨Tmdb.valueY, by decide⟩

/-- A read after a second insert of its key: the cache has the second value, the store the first. -/
theorem not_transparent_twice :
    ¬Transparent (enableCache 0 0 .empty)
      [.insert 1000 payloadX, .insert 1000 payloadY, .read 1000] := by
  intro h
  have houtputs := h [([], .insert 1000 payloadX), ([], .insert 1000 payloadY), ([], .read 1000)]
    rfl
  revert houtputs
  decide +kernel

end CachelibArchive.Backend
