import CachelibArchive.Backend.AutoIncCache
import CachelibArchive.Backend.Flavours
import CachelibArchive.Core.Trace

/-!
# The backends that cache what they read

MySQL, SQLite and MongoDB cache a row when a read has found it, and make all
cached rows unreachable when they insert: the generation counter in front of
every key moves on. The counter lives in the backend, the rows live in the
server, and a clean-up deletes rows of the database through another backend. So
a later run meets, at the same count of its own inserts, the rows an earlier run
has cached.
-/

namespace CachelibArchive.Backend

open ClientServer

variable {R : Type}

/-! ## Calls -/

/-- A call, or the end of a run: a clean-up through a backend without cache, and a fresh
backend for the next run. -/
inductive SqlOp (R : Type)
  | insert (key : Int) (row : R)
  | read (key : Int)
  | restart

/-- The table, and the counter of the backend that works on it. -/
structure Table (R : Type) where
  db : Int → Option R
  counter : Int32

/-- What a run works on: the table, and the cache of the server. -/
structure SqlStores (R : Type) extends Table R where
  server : Cache

/-- The insert statement; a present key is refused. -/
def insertRow (db : Int → Option R) (key : Int) (row : R) : Int → Option R :=
  if (db key).isSome then db else Function.update db key (some row)

/-- `clean_up`: every row from `MAX_RECORDS` on is deleted. -/
def cleanUp (fl : Flavour R) (db : Int → Option R) : Int → Option R := fun key =>
  if (fl.maxRecords : Int) ≤ key then none else db key

/-- The counter after an insert: `invalidate_all_` is called in front of the statement, or
behind it if it has not failed. -/
def nextCounter (fl : Flavour R) (t : Table R) (key : Int) : Int32 :=
  if fl.eager = true ∨ t.db key = none then AutoIncCache.invalidateAll_ t.counter
  else t.counter

/-- What a call makes of the table and the counter. -/
def Table.next (fl : Flavour R) (t : Table R) : SqlOp R → Table R
  | .insert key row => ⟨insertRow t.db key row, nextCounter fl t key⟩
  | .read _ => t
  | .restart => ⟨cleanUp fl t.db, 0⟩

/-- `read_record`. -/
def readRow (fl : Flavour R) (a : AutoIncCache) (w : SqlStores R) (key : Int) :
    (Bool × List (List UInt8)) × SqlStores R :=
  let a := { a with counter := w.counter }
  let value := a.get_ w.server (fl.cacheKey key)
  if value ≠ [] then ((true, fl.decode value), w)
  else match w.db key with
    | none => ((false, []), w)
    | some row => ((true, fl.values key row), { w with
        server := (a.set_ w.server (fl.cacheKey key) (fl.encode key row) true).2 })

/-- One call with the cache enabled, after the server has dropped some items. An insert
answers whether it was made. -/
def sqlStep (fl : Flavour R) (a : AutoIncCache) (w : SqlStores R)
    (call : List CString × SqlOp R) : (Bool × List (List UInt8)) × SqlStores R :=
  let w := { w with server := call.1.foldl evict w.server }
  match call.2 with
  | .insert key row =>
    (((w.db key).isNone, []), { w with toTable := w.toTable.next fl (.insert key row) })
  | .read key => readRow fl a w key
  | .restart => ((true, []), { w with toTable := w.toTable.next fl .restart })

/-- The same call on the table alone. -/
def tableStep (fl : Flavour R) (t : Table R) (op : SqlOp R) :
    (Bool × List (List UInt8)) × Table R :=
  let answer := match op with
    | .insert key _ => ((t.db key).isNone, [])
    | .read key => ((t.db key).isSome, ((t.db key).map (fl.values key)).getD [])
    | .restart => (true, [])
  (answer, t.next fl op)

/-- However the server drops items, the calls are answered as by the table alone. -/
def Fresh (fl : Flavour R) (a : AutoIncCache) (db : Int → Option R)
    (ops : List (SqlOp R)) : Prop :=
  ∀ schedule : List (List CString × SqlOp R), schedule.map Prod.snd = ops →
    Trace.outputs (sqlStep fl a) ⟨⟨db, 0⟩, fun _ => none⟩ schedule =
      Trace.outputs (tableStep fl) ⟨db, 0⟩ ops

/-! ## The condition -/

/-- A row that reaches the cache, and is taken for a row there. -/
def Flavour.Fits (fl : Flavour R) (key : Int) (row : R) : Prop :=
  fl.encode key row ≠ [] ∧ (fl.encode key row).length ≤ AutoIncCache.maxValueSize

/-- The table after some calls. -/
def Table.run (fl : Flavour R) (t : Table R) (ops : List (SqlOp R)) : Table R :=
  ops.foldl (Table.next fl) t

/-- At the count `c`, in this run or an earlier one, a read of the key met the row in the
table, and the row fits the cache. -/
def Met (fl : Flavour R) (start : Table R) (done : List (SqlOp R)) (c : Int32) (key : Int)
    (row : R) : Prop :=
  fl.Fits key row ∧ Trace.Once (fun before op => op = .read key ∧
    (start.run fl before).counter = c ∧ (start.run fl before).db key = some row) done

/-- The condition on a read: each row that a read of the key has met at the count of now is, as
its cached text gives it back, the row the table holds now. -/
def StillHolds (fl : Flavour R) (start : Table R) (done : List (SqlOp R)) :
    SqlOp R → Prop
  | .insert .. | .restart => True
  | .read key => ∀ row, Met fl start done (start.run fl done).counter key row →
      ∃ held ∈ (start.run fl done).db key, fl.decode (fl.encode key row) = fl.values key held

variable {fl : Flavour R} {a : AutoIncCache} {start : Table R} {done : List (SqlOp R)}

theorem Table.run_snoc (fl : Flavour R) (start : Table R) (done : List (SqlOp R))
    (op : SqlOp R) : start.run fl (done ++ [op]) = (start.run fl done).next fl op := by
  rw [Table.run, List.foldl_append]
  rfl

theorem met_snoc {op : SqlOp R} {c : Int32} {key : Int} {row : R} :
    Met fl start (done ++ [op]) c key row ↔
      Met fl start done c key row ∨ fl.Fits key row ∧ op = .read key ∧
        (start.run fl done).counter = c ∧ (start.run fl done).db key = some row := by
  rw [Met, Met, Trace.once_concat, and_or_left]

/-- Only a read meets a row. -/
theorem met_snoc_of_ne {op : SqlOp R} (hop : ∀ key, op ≠ .read key) {c : Int32} {key : Int}
    {row : R} : Met fl start (done ++ [op]) c key row ↔ Met fl start done c key row := by
  rw [met_snoc, or_iff_left]
  rintro ⟨_, rfl, _⟩
  exact hop key rfl

/-! ## The cache against the history -/

/-- What is cached for a key at a count. -/
def cachedAt (fl : Flavour R) (a : AutoIncCache) (server : Cache) (c : Int32) (key : Int) :
    Option (List UInt8) :=
  AutoIncCache.entry { a with counter := c } server (fl.cacheKey key)

/-- Nothing but rows that were met is cached; `exact` says that all of them are. -/
structure Tracks (exact : Prop) (fl : Flavour R) (a : AutoIncCache) (start : Table R)
    (done : List (SqlOp R)) (server : Cache) : Prop where
  cached : ∀ c key, ∀ v ∈ cachedAt fl a server c key,
    v = [] ∨ ∃ row, Met fl start done c key row ∧ fl.encode key row = v
  kept : exact → ∀ c key row, Met fl start done c key row →
    cachedAt fl a server c key = some (fl.encode key row)

theorem tracks_nil (exact : Prop) (fl : Flavour R) (a : AutoIncCache) (start : Table R) :
    Tracks exact fl a start [] (fun _ => none) :=
  ⟨fun _ _ _ hv => (nomatch hv), fun _ _ _ _ h => absurd h.2 (Trace.once_nil _)⟩

variable {exact : Prop} {server : Cache}

/-- Only evictions lose rows. -/
theorem Tracks.evict (h : Tracks exact fl a start done server) {ks : List CString}
    (hks : exact → ks = []) : Tracks exact fl a start done (ks.foldl Backend.evict server) := by
  refine ⟨fun c key v hv => ?_, fun hexact => ?_⟩
  · apply h.cached c key v
    rcases AutoIncCache.entry_evict { a with counter := c } server ks (fl.cacheKey key) with
      hnone | hsame
    · exact nomatch hnone.symm.trans hv
    · exact hsame.symm.trans hv
  · rw [hks hexact]
    exact h.kept hexact

/-- A call that is no read leaves the cache and the rows met as they are. -/
theorem Tracks.other (h : Tracks exact fl a start done server) {op : SqlOp R}
    (hop : ∀ key, op ≠ .read key) : Tracks exact fl a start (done ++ [op]) server := by
  constructor
  · simp only [met_snoc_of_ne hop]
    exact h.cached
  · simp only [met_snoc_of_ne hop]
    exact h.kept

/-! ## Reads -/

theorem readRow_of_hit {w : SqlStores R} {key : Int} {v : List UInt8}
    (hv : cachedAt fl a w.server w.counter key = some v) (hne : v ≠ []) :
    readRow fl a w key = ((true, fl.decode v), w) := by
  simp only [readRow, AutoIncCache.get_of_entry hv, if_pos hne]

/-- A read that misses answers from the table, and caches the row it finds. -/
theorem readRow_of_miss {w : SqlStores R} {key : Int}
    (hmiss : ∀ v ∈ cachedAt fl a w.server w.counter key, v = []) :
    readRow fl a w key = ((tableStep fl w.toTable (.read key)).1, match w.db key with
      | none => w
      | some row => { w with
          server := (AutoIncCache.set_ { a with counter := w.counter } w.server
            (fl.cacheKey key) (fl.encode key row) true).2 }) := by
  simp only [readRow, AutoIncCache.get_of_miss hmiss, ne_eq, not_true_eq_false, ite_false,
    tableStep]
  cases w.db key <;> rfl

/-- A hit is a row that was met. -/
theorem Tracks.met_of_hit (h : Tracks exact fl a start done server) {c : Int32} {key : Int}
    {v : List UInt8} (hv : cachedAt fl a server c key = some v) (hne : v ≠ []) :
    ∃ row, Met fl start done c key row ∧ fl.encode key row = v :=
  (h.cached c key v hv).resolve_left hne

/-- On a miss no row was met, where all rows met are cached. -/
theorem Tracks.not_met_of_miss (h : Tracks exact fl a start done server) (hexact : exact)
    {c : Int32} {key : Int} (hmiss : ∀ v ∈ cachedAt fl a server c key, v = []) (row : R) :
    ¬Met fl start done c key row := by
  intro hmet
  exact hmet.1.1 (hmiss _ (h.kept hexact c key row hmet))

/-- What a read that misses caches. -/
theorem Tracks.set (h : Tracks exact fl a start done server) {key : Int} {row : R}
    (hdb : (start.run fl done).db key = some row)
    (hmiss : ∀ v ∈ cachedAt fl a server (start.run fl done).counter key, v = []) :
    Tracks exact fl a start (done ++ [.read key])
      (AutoIncCache.set_ { a with counter := (start.run fl done).counter } server
        (fl.cacheKey key) (fl.encode key row) true).2 := by
  have hother : ∀ c key', (c = (start.run fl done).counter → key' ≠ key) →
      cachedAt fl a (AutoIncCache.set_ { a with counter := (start.run fl done).counter } server
        (fl.cacheKey key) (fl.encode key row) true).2 c key' = cachedAt fl a server c key' := by
    intro c key' hne
    exact AutoIncCache.entry_set_of_ne server (fl.key_text key) (fl.key_text key')
      (fun hc heq => hne hc (fl.key_inj heq)) _ _
  have hsame := AutoIncCache.entry_set_same { a with counter := (start.run fl done).counter }
    server (fl.cacheKey key) (fl.encode_text key row) true
  constructor
  · intro c key' v hv
    by_cases hslot : c = (start.run fl done).counter ∧ key' = key
    · obtain ⟨rfl, rfl⟩ := hslot
      rw [cachedAt, hsame] at hv
      split at hv
      · next htakes =>
        obtain rfl := Option.some.inj hv
        by_cases hnil : fl.encode key' row = []
        · exact .inl hnil
        · exact .inr ⟨row, met_snoc.mpr (.inr ⟨⟨hnil, htakes.1⟩, rfl, rfl, hdb⟩), rfl⟩
      · exact .inl (hmiss v hv)
    · rw [hother c key' fun hc hk => hslot ⟨hc, hk⟩] at hv
      refine (h.cached c key' v hv).imp_right ?_
      rintro ⟨row', hmet, heq⟩
      exact ⟨row', met_snoc.mpr (.inl hmet), heq⟩
  · intro hexact c key' row' hmet
    rcases met_snoc.mp hmet with hbefore | ⟨hfits, hop, rfl, hdb'⟩
    · rw [hother c key' ?_]
      · exact h.kept hexact c key' row' hbefore
      · rintro rfl rfl
        exact h.not_met_of_miss hexact hmiss row' hbefore
    · cases hop
      rw [hdb] at hdb'
      obtain rfl := Option.some.inj hdb'
      rw [cachedAt, hsame, if_pos ⟨hfits.2, rfl⟩]

/-- A read that misses an absent row, and a read that hits a row still there, change nothing. -/
theorem Tracks.unchanged (h : Tracks exact fl a start done server) {key : Int}
    (hsame : exact → ∀ row, (start.run fl done).db key = some row → fl.Fits key row →
      cachedAt fl a server (start.run fl done).counter key = some (fl.encode key row)) :
    Tracks exact fl a start (done ++ [.read key]) server := by
  constructor
  · intro c key' v hv
    refine (h.cached c key' v hv).imp_right ?_
    rintro ⟨row, hmet, heq⟩
    exact ⟨row, met_snoc.mpr (.inl hmet), heq⟩
  · intro hexact c key' row hmet
    rcases met_snoc.mp hmet with hbefore | ⟨hfits, hop, rfl, hdb⟩
    · exact h.kept hexact c key' row hbefore
    · cases hop
      exact hsame hexact row hdb hfits

/-- Where the row that was met still holds, a read is answered by the table, and the cache
keeps to the rows met. -/
theorem Tracks.read {w : SqlStores R} (h : Tracks exact fl a start done w.server)
    (hw : w.toTable = start.run fl done) {key : Int}
    (hold : StillHolds fl start done (.read key)) :
    (readRow fl a w key).1 = (tableStep fl w.toTable (.read key)).1 ∧
      (readRow fl a w key).2.toTable = w.toTable ∧
      Tracks exact fl a start (done ++ [.read key]) (readRow fl a w key).2.server := by
  by_cases hmiss : ∀ v ∈ cachedAt fl a w.server w.counter key, v = []
  · rw [readRow_of_miss hmiss]
    rw [hw] at hmiss
    cases hdb : w.db key with
    | none =>
      refine ⟨rfl, rfl, h.unchanged fun _ row hrow => ?_⟩
      rw [← hw, hdb] at hrow
      cases hrow
    | some row =>
      refine ⟨rfl, rfl, ?_⟩
      rw [hw] at hdb
      have hset := h.set hdb hmiss
      rwa [← hw] at hset
  · push Not at hmiss
    obtain ⟨v, hv, hne⟩ := hmiss
    obtain ⟨row, hmet, rfl⟩ := h.met_of_hit hv hne
    rw [hw] at hmet
    obtain ⟨held, hdb, hdecode⟩ := hold row hmet
    rw [readRow_of_hit hv hne]
    refine ⟨?_, rfl, h.unchanged fun _ row' hrow' _ => ?_⟩
    · rw [← hw] at hdb
      simp only [tableStep, Option.mem_def.mp hdb, hdecode, Option.isSome_some, Option.map_some,
        Option.getD_some]
    · obtain rfl := Option.some.inj (hdb.symm.trans hrow')
      rwa [hw, fl.encode_eq key row held hdecode] at hv

/-- The backend with its cache beside the table alone. -/
structure Follows (exact : Prop) (fl : Flavour R) (a : AutoIncCache) (start : Table R)
    (done : List (SqlOp R)) (w : SqlStores R) (t : Table R) : Prop where
  table : w.toTable = t
  replay : t = start.run fl done
  tracks : Tracks exact fl a start done w.server

variable {w : SqlStores R} {t : Table R}

theorem Follows.step (h : Follows exact fl a start done w t) {ks : List CString}
    (hks : exact → ks = []) {op : SqlOp R} (hop : StillHolds fl start done op) :
    (sqlStep fl a w (ks, op)).1 = (tableStep fl t op).1 ∧
      Follows exact fl a start (done ++ [op]) (sqlStep fl a w (ks, op)).2
        (tableStep fl t op).2 := by
  obtain ⟨rfl, hreplay, htracks⟩ := h
  have hevicted := htracks.evict hks
  have hnext : w.toTable.next fl op = start.run fl (done ++ [op]) := by
    rw [Table.run_snoc, ← hreplay]
  cases op with
  | insert key row => exact ⟨rfl, rfl, hnext, hevicted.other fun _ hne => nomatch hne⟩
  | restart => exact ⟨rfl, rfl, hnext, hevicted.other fun _ hne => nomatch hne⟩
  | read key =>
    obtain ⟨hanswer, htable, hread⟩ :=
      Tracks.read (w := { w with server := ks.foldl Backend.evict w.server }) hevicted hreplay hop
    exact ⟨hanswer, htable, hnext, hread⟩

/-- Where no row is lost, a read answered by the table meets the condition. -/
theorem Follows.stillHolds (h : Follows True fl a start done w t) {op : SqlOp R}
    (hanswer : (sqlStep fl a w ([], op)).1 = (tableStep fl t op).1) :
    StillHolds fl start done op := by
  obtain ⟨rfl, hreplay, htracks⟩ := h
  cases op with
  | insert | restart => trivial
  | read key =>
    intro row hmet
    rw [← hreplay] at hmet ⊢
    have hkept := htracks.kept trivial _ _ _ hmet
    have hread : (readRow fl a w key).1 = (tableStep fl w.toTable (.read key)).1 := hanswer
    rw [readRow_of_hit hkept hmet.1.1, tableStep] at hread
    obtain ⟨hsome, hvalues⟩ := Prod.mk.inj hread
    obtain ⟨held, hheld⟩ := Option.isSome_iff_exists.mp hsome.symm
    rw [hheld, Option.map_some, Option.getD_some] at hvalues
    exact ⟨held, hheld, hvalues⟩

/-- Every call is answered as by the table alone, whatever the server drops, if and only if at
every read the table holds what the text of each row gives back that a read of the key has met at
the same count. -/
theorem fresh_iff_stillHolds (fl : Flavour R) (a : AutoIncCache) (db : Int → Option R)
    (ops : List (SqlOp R)) :
    Fresh fl a db ops ↔ Trace.AtEach (StillHolds fl ⟨db, 0⟩) ops := by
  have hstart : ∀ exact, Follows exact fl a ⟨db, 0⟩ [] ⟨⟨db, 0⟩, fun _ => none⟩ ⟨db, 0⟩ :=
    fun exact => ⟨rfl, rfl, tracks_nil exact fl a ⟨db, 0⟩⟩
  constructor
  · intro h
    have houtputs := h (ops.map fun op => ([], op)) (by simp)
    rw [← Trace.outputs_map (sqlStep fl a) (fun op => ([], op))] at houtputs
    refine (Trace.outputs_eq_iff (R := Follows True fl a ⟨db, 0⟩) ?_ ?_ (hstart True) ops).mp
      houtputs
    · exact fun done w t op hf hop => (hf.step (fun _ => rfl) hop).2
    · exact fun done w t op hf => ⟨hf.stillHolds, fun hop => (hf.step (fun _ => rfl) hop).1⟩
  · rintro h schedule rfl
    rw [← Trace.outputs_map (tableStep fl) Prod.snd]
    rw [Trace.atEach_map] at h
    refine Trace.outputs_eq_of_atEach (R := fun done => Follows False fl a ⟨db, 0⟩
      (done.map Prod.snd)) ?_ (hstart False) h
    rintro done w t ⟨ks, op⟩ hf hop
    rw [List.map_append]
    exact hf.step False.elim hop

/-- The row whose one field repeats a letter. -/
def letterRow (c : UInt8) (hc : c ∈ charSymbols) : Row shipped where
  fields := [letters c fun h => zero_not_mem_charSymbols (h ▸ hc)]
  full := rfl
  plain := by
    intro f hf b hb
    obtain rfl := List.mem_singleton.mp hf
    rwa [List.eq_of_mem_replicate hb]

/-- A row of A's and one of B's. -/
def rowA : TextRow shipped := (letterRow 65 (by decide +kernel)).stored

def rowB : TextRow shipped := (letterRow 66 (by decide +kernel)).stored

/-- Two runs that insert different rows under the first free key, and read it back. -/
def twoRuns (row row' : R) : List (SqlOp R) :=
  [.insert 1000 row, .read 1000, .restart, .insert 1000 row', .read 1000]

/-- The second run is served the row of the first, whatever the backend. -/
theorem not_fresh_twoRuns :
    ¬Fresh (sqlBackend shipped (.ofBytes (ascii "usertable0"))) (enableCache 0 0 .empty)
        (fun _ => none) (twoRuns rowA.toTableRow rowB.toTableRow) ∧
      ¬Fresh (mongoDBBackend shipped legacyJson) (enableCache 0 0 .empty) (fun _ => none)
        (twoRuns rowA rowB) := by
  constructor
  · intro h
    have hanswers := h ((twoRuns rowA.toTableRow rowB.toTableRow).map fun op => ([], op)) (by simp)
    revert hanswers
    decide +kernel
  · intro h
    have hanswers := h ((twoRuns rowA rowB).map fun op => ([], op)) (by simp)
    revert hanswers
    decide +kernel

end CachelibArchive.Backend
