import CachelibArchive.Backend.Tmdb
import CachelibArchive.Core.Text
import CachelibArchive.Tmdb.Process
import CachelibArchive.Tmdb.Room

/-!
# TmdbBackend on its files

The same calls on the handle the constructor opens. Closing one backend and
constructing the next reopens the files; the counter of the new one starts over
and the cache of the server does not. What the handle still held on the data file
stays behind as well, and the next insert waits for it.
-/

namespace CachelibArchive.Backend

open ClientServer

/-! ## Decimal keys -/

theorem isspace_of_mem_decimalInt {b : UInt8} {i : Int} (h : b ∈ decimalInt i) :
    Tmdb.isspace b = false := by
  have hb := of_mem_decimalInt h
  simp only [Tmdb.isspace, Bool.or_eq_false_iff, Bool.and_eq_false_iff, decide_eq_false_iff_not,
    UInt8.le_iff_toNat_le, ← UInt8.toNat_inj]
  exact ⟨by simp; omega, .inr (by simp; omega)⟩

theorem decimalInt_length (key : Int32) :
    0 < (decimalInt key.toInt).length ∧ (decimalInt key.toInt).length ≤ 11 := by
  have hlow := key.le_toInt
  have hhigh := key.toInt_lt
  cases hi : key.toInt with
  | ofNat n =>
    rw [hi, Int.ofNat_eq_natCast] at hhigh
    have hn : n < 10 ^ 10 := by omega
    exact ⟨List.length_pos_of_ne_nil (Text.decimal_ne_nil n),
      (length_decimal_le (by decide) hn).trans (by decide)⟩
  | negSucc n =>
    have hn : n + 1 < 10 ^ 10 := by omega
    exact ⟨Nat.succ_pos _, Nat.succ_le_succ (length_decimal_le (by decide) hn)⟩

/-- The key of a record, as the store takes it. -/
def recordKey (key : Int32) : Tmdb.Key where
  str := keyString key.toInt
  pos := (decimalInt_length key).1
  short := Nat.lt_of_le_of_lt (decimalInt_length key).2 (by decide)
  trimmed _ hc := isspace_of_mem_decimalInt (List.mem_of_getLast? hc)

/-! ## The backend -/

/-- Ways a call does not return: below the store or waiting for its lock, or in the backend. -/
inductive Crash
  | halt (halt : Tmdb.Halt)
  | thrown (thrown : Thrown)
  deriving DecidableEq

/-- The mode of the constructor's `tdb_open`: "w" if both files can be opened, else "c". -/
def openMode (disk : Tmdb.Disk) : Tmdb.OpenMode :=
  if disk.idx.isNone ∨ disk.dat.isNone then .create else .write

/-- A `TmdbBackend`, the program with its handle, and the cache of the server. -/
structure TmdbFiles where
  process : Tmdb.Process
  server : Cache
  backend : TmdbBackend

namespace TmdbFiles

/-- The server after `cache.set_`, if the backend has a cache. -/
def cacheSet (w : TmdbFiles) (key : Int32) (value : List UInt8) (allocated : Bool) : Cache :=
  if w.backend.cacheEnabled then
    (w.backend.cache.set_ w.server (decimalInt key.toInt) value allocated).2
  else w.server

/-- `TmdbBackend::insert_record`. -/
def insertRecord (w : TmdbFiles) (key : Int32) (values : List (List UInt8)) (pad : UInt32)
    (allocated : Bool) : Except Crash Bool × TmdbFiles :=
  match values with
  | [] => (.error (.thrown .noField), w)
  | value :: _ =>
    let w := { w with server := w.cacheSet key value allocated }
    match w.process.store (keyString key.toInt) (.ofBytes value) pad with
    | (.error halt, process) => (.error (.halt halt), { w with process })
    | (.ok _, process) => (.ok true, { w with process })

/-- `TmdbBackend::read_record`. -/
def readRecord (w : TmdbFiles) (key : Int32) (allocated : Bool) :
    Except Crash (List (List UInt8)) × TmdbFiles :=
  let value := if w.backend.cacheEnabled then
      w.backend.cache.get_ w.server (decimalInt key.toInt)
    else []
  if value ≠ [] then (.ok [value], w)
  else match w.process.fetch (keyString key.toInt) with
    | (.error halt, process) => (.error (.halt halt), { w with process })
    | (.ok none, process) => (.error (.thrown .nullString), { w with process })
    | (.ok (some valueInDisk), process) =>
      (.ok [valueInDisk.bytes],
        { w with process, server := w.cacheSet key valueInDisk.bytes allocated })

/-- The destructor, and the constructor of the next instance. -/
def renew (w : TmdbFiles) (next : TmdbBackend) : Except Crash Unit × TmdbFiles :=
  match w.process.reopen (openMode (Tmdb.dbFree w.process.db)) with
  | none => (.error (.halt (.fault .exit)), w)
  | some process => (.ok (), { w with process, backend := next })

end TmdbFiles

/-! ## Calls -/

/-- What happens to a backend: calls of the benchmark, drops of the server, and the end of one
instance with the start of the next. -/
inductive FileCall
  | insert (key : Int32) (values : List (List UInt8)) (pad : UInt32) (allocated : Bool)
  | read (key : Int32) (allocated : Bool)
  | evict (key : CString)
  | renew (next : TmdbBackend)

namespace FileCall

/-- One call on the files. -/
def onFiles (w : TmdbFiles) :
    FileCall → Except Crash (Bool × List (List UInt8)) × TmdbFiles
  | .insert key values pad allocated =>
    let (r, w) := w.insertRecord key values pad allocated
    (r.map fun ok => (ok, []), w)
  | .read key allocated =>
    let (r, w) := w.readRecord key allocated
    (r.map fun results => (true, results), w)
  | .evict key => (.ok (true, []), { w with server := Backend.evict w.server key })
  | .renew next =>
    let (r, w) := w.renew next
    (r.map fun _ => (true, []), w)

/-- The same call on the map, which a new instance finds as the last one left it. -/
def onMap (w : TmdbStores × TmdbBackend) :
    FileCall → Except Crash (Bool × List (List UInt8)) × (TmdbStores × TmdbBackend)
  | .insert key values _ allocated =>
    let (r, stores) := w.2.insertRecord w.1 key.toInt values allocated
    ((r.map fun ok => (ok, [])).mapError .thrown, (stores, w.2))
  | .read key allocated =>
    let (r, stores) := w.2.readRecord w.1 key.toInt allocated
    ((r.map fun results => (true, results)).mapError .thrown, (stores, w.2))
  | .evict key => (.ok (true, []), ({ w.1 with server := Backend.evict w.1.server key }, w.2))
  | .renew next => (.ok (true, []), (w.1, next))

/-- What the call adds to a file at most. -/
def growth : FileCall → Nat
  | .insert _ (value :: _) _ _ => (CString.ofBytes value).length + Tmdb.keyRecordSize
  | _ => 0

/-- The value of an insert is below the record limit. -/
def Storable : FileCall → Prop
  | .insert _ values _ _ =>
    ∀ v ∈ values.head?, (CString.ofBytes v).length < Tmdb.tdbMaxRecordLen
  | _ => True

instance : DecidablePred Storable
  | .insert _ values _ _ => inferInstanceAs (Decidable (∀ v ∈ values.head?, _))
  | .read .. | .evict _ | .renew _ => inferInstanceAs (Decidable True)

end FileCall

/-! ## Files and map -/

/-- The map holds, under the keys of the store, what the files hold. -/
def Agrees (db : CString → Option CString) (m : Tmdb.Key → Option Tmdb.Value) : Prop :=
  ∀ k : Tmdb.Key, db k.str = (m k).map Tmdb.Value.str

theorem Agrees.store {db : CString → Option CString} {m : Tmdb.Key → Option Tmdb.Value}
    (h : Agrees db m) (k : Tmdb.Key) (v : Tmdb.Value) :
    Agrees (tdbStore db k.str v.str) (Tmdb.insertNew m k v) := by
  intro k'
  by_cases hkk : k' = k
  · subst hkk
    rw [tdbStore_same, h k', Tmdb.insertNew, Function.update_self]
    cases m k' <;> rfl
  · have hne : k'.str ≠ k.str := fun heq => hkk (Tmdb.Key.ext (congrArg CString.bytes heq))
    rw [tdbStore_of_ne _ hne, h k', Tmdb.insertNew, Function.update_of_ne hkk]

/-! ## What the calls say about the lock -/

/-- What the cache of a backend answers, the empty string standing for no answer. -/
def TmdbBackend.cached (b : TmdbBackend) (server : Cache) (key : Int32) : List UInt8 :=
  if b.cacheEnabled then b.cache.get_ server (decimalInt key.toInt) else []

/-- The backend on the map, and what its calls have done to the lock of the data file. -/
structure Watched where
  stores : TmdbStores
  backend : TmdbBackend
  marks : Tmdb.Marks

/-- What one call adds: an insert gives the lock back, and so does a read that the store answers;
a read that finds nothing there keeps it. -/
def Watched.next (s : Watched) (c : FileCall) : Watched where
  stores := (c.onMap (s.stores, s.backend)).2.1
  backend := (c.onMap (s.stores, s.backend)).2.2
  marks := match c with
    | .insert _ [] _ _ => s.marks
    | .insert _ (_ :: _) _ _ => s.marks.stored
    | .read key _ =>
      if s.backend.cached s.stores.server key ≠ [] then s.marks
      else s.marks.fetched (s.stores.db (keyString key.toInt)).isSome
    | .evict _ => s.marks
    | .renew _ => s.marks.reopened

/-- What some calls add up to, from nothing on disk. -/
def watched (server : Cache) (b : TmdbBackend) (calls : List FileCall) : Watched :=
  calls.foldl Watched.next ⟨⟨fun _ => none, server⟩, b, .none⟩

/-- The condition on a call: no instance has left its lock where a record is inserted. -/
def NoLockLeft (server : Cache) (b : TmdbBackend) (done : List FileCall) : FileCall → Prop
  | .insert _ (_ :: _) _ _ => (watched server b done).marks.left = false
  | _ => True

instance (server : Cache) (b : TmdbBackend) (done : List FileCall) :
    DecidablePred (NoLockLeft server b done)
  | .insert _ (_ :: _) _ _ => inferInstanceAs (Decidable (_ = false))
  | .insert _ [] _ _ | .read .. | .evict _ | .renew _ => inferInstanceAs (Decidable True)

/-- The backend on its files and the watched backend on the map, in files of at most so many
bytes. -/
structure Mirrors (n : Nat) (w : TmdbFiles) (t : Watched) : Prop where
  holds : ∃ m, Tmdb.Holds w.process.db m n ∧ Agrees t.stores.db m
  writable : Tmdb.Writable w.process.db
  server : w.server = t.stores.server
  backend : w.backend = t.backend
  marked : w.process.Marked t.marks

section Mirrors

variable {n : Nat} {w : TmdbFiles} {t : Watched}

/-- An insert that finds no lock is the insert into the map. -/
theorem Mirrors.insert (h : Mirrors n w t) (hleft : t.marks.left = false) (key : Int32)
    {value : List UInt8} (hvalue : (CString.ofBytes value).length < Tmdb.tdbMaxRecordLen)
    (hroom : n + ((CString.ofBytes value).length + Tmdb.keyRecordSize) < 2 ^ 63)
    (rest : List (List UInt8)) (pad : UInt32) (allocated : Bool) :
    ∃ w', w.insertRecord key (value :: rest) pad allocated = (.ok true, w') ∧
      Mirrors (n + ((CString.ofBytes value).length + Tmdb.keyRecordSize)) w'
        (t.next (.insert key (value :: rest) pad allocated)) := by
  obtain ⟨m, hm, hagrees⟩ := h.holds
  let v : Tmdb.Value := ⟨.ofBytes value, hvalue⟩
  obtain ⟨db, hstore, hholds, hwritable⟩ :=
    hm.insert (k := recordKey key) (v := v) h.writable hroom pad
  change Tmdb.dbStore Tmdb.allAccepted w.process.db (keyString key.toInt) (.ofBytes value) .insert
    pad = _ at hstore
  have hlock := Tmdb.dbStore_datLock hstore (by split_ifs <;> decide)
  refine ⟨{ w with process := { w.process with db }, server := w.cacheSet key value allocated },
    ?_, ⟨_, hholds, hagrees.store (recordKey key) v⟩, hwritable, ?_, h.backend,
    h.marked.stored hlock⟩
  · simp only [TmdbFiles.insertRecord, h.marked.store_eq hleft hstore]
  · simp only [TmdbFiles.cacheSet, Watched.next, FileCall.onMap, TmdbBackend.insertRecord, h.server,
      h.backend]

/-- An insert that finds a lock does not return. -/
theorem Mirrors.insert_waits (h : Mirrors n w t) (hleft : t.marks.left = true) (key : Int32)
    {value : List UInt8} (hvalue : (CString.ofBytes value).length < Tmdb.tdbMaxRecordLen)
    (rest : List (List UInt8)) (pad : UInt32) (allocated : Bool) :
    (w.insertRecord key (value :: rest) pad allocated).1 = .error (.halt .waits) := by
  have hwaits := h.marked.store_waits hleft
    (⟨(recordKey key).keyLength, hvalue.le⟩ :
      Tmdb.Accepted (keyString key.toInt) (.ofBytes value)) pad
  simp only [TmdbFiles.insertRecord, hwaits]

/-- The fetch of a record's key answers as the map, and keeps its lock if it finds nothing. -/
theorem Mirrors.fetch (h : Mirrors n w t) (key : Int32) :
    ∃ process, w.process.fetch (keyString key.toInt) =
        (.ok (t.stores.db (keyString key.toInt)), process) ∧
      (∃ m, Tmdb.Holds process.db m n ∧ Agrees t.stores.db m) ∧ Tmdb.Writable process.db ∧
      process.Marked (t.marks.fetched (t.stores.db (keyString key.toInt)).isSome) := by
  obtain ⟨m, hm, hagrees⟩ := h.holds
  obtain ⟨db, hfetch, hsame, hholds⟩ := hm.fetch (recordKey key)
  rw [← hagrees (recordKey key)] at hfetch
  have hlock := Tmdb.dbFetch_datLock w.process.db (recordKey key).keyLength
  have hcall := h.marked.fetch_eq (recordKey key).str
  rw [hfetch] at hlock hcall
  refine ⟨_, hcall, ⟨m, hholds, hagrees⟩, hsame.writable h.writable, h.marked.fetched ?_⟩
  rw [hlock]
  change (if Tmdb.returnsValue (.ok (t.stores.db (keyString key.toInt))) then _ else _) = _
  cases t.stores.db (keyString key.toInt) <;> rfl

/-- A read is the read of the map. -/
theorem Mirrors.read (h : Mirrors n w t) (key : Int32) (allocated : Bool) :
    (w.readRecord key allocated).1 =
        ((t.backend.readRecord t.stores key.toInt allocated).1).mapError .thrown ∧
      Mirrors n (w.readRecord key allocated).2 (t.next (.read key allocated)) := by
  obtain ⟨process, hfetch, hholds, hwritable, hmarked⟩ := h.fetch key
  have hcached : (if t.backend.cacheEnabled then
      t.backend.cache.get_ t.stores.server (decimalInt key.toInt) else []) =
      t.backend.cached t.stores.server key := rfl
  rw [Watched.next]
  simp only [TmdbFiles.readRecord, FileCall.onMap, TmdbBackend.readRecord, hfetch, h.server,
    h.backend, hcached]
  by_cases hvalue : t.backend.cached t.stores.server key ≠ []
  · simp only [if_pos hvalue]
    exact ⟨rfl, h⟩
  · simp only [if_neg hvalue]
    cases hdb : t.stores.db (keyString key.toInt) with
    | none =>
      rw [hdb] at hmarked
      exact ⟨rfl, ⟨hholds, hwritable, rfl, rfl, hmarked⟩⟩
    | some v =>
      rw [hdb] at hmarked
      refine ⟨rfl, ⟨hholds, hwritable, ?_, rfl, hmarked⟩⟩
      simp only [TmdbFiles.cacheSet, h.server, h.backend]

/-- A restart opens the same files. -/
theorem Mirrors.renew (h : Mirrors n w t) (next : TmdbBackend) :
    ∃ w', w.renew next = (.ok (), w') ∧ Mirrors n w' (t.next (.renew next)) := by
  obtain ⟨m, hm, hagrees⟩ := h.holds
  obtain ⟨db, hopen, hholds, hwritable⟩ := hm.reopen
  have hlock : db.datLock = .unlocked := by
    cases hopen
    rfl
  have hmode : openMode (Tmdb.dbFree w.process.db) = .write := rfl
  refine ⟨{ w with process := ⟨db, _⟩, backend := next }, ?_,
    ⟨m, hholds, hagrees⟩, hwritable, h.server, rfl, h.marked.reopened hlock⟩
  rw [TmdbFiles.renew, hmode, Tmdb.Process.reopen, hopen]
  rfl

/-- One call on the files answers as on the map, if it meets no lock. -/
theorem Mirrors.call (h : Mirrors n w t) {c : FileCall} (hc : c.Storable)
    (hroom : n + c.growth < 2 ^ 63) {server : Cache} {b : TmdbBackend} {done : List FileCall}
    (ht : watched server b done = t) (hfree : NoLockLeft server b done c) :
    (c.onFiles w).1 = (c.onMap (t.stores, t.backend)).1 ∧
      Mirrors (n + c.growth) (c.onFiles w).2 (t.next c) := by
  cases c with
  | insert key values pad allocated =>
    cases values with
    | nil => exact ⟨rfl, h⟩
    | cons value rest =>
      have hleft : t.marks.left = false := ht ▸ hfree
      obtain ⟨w', hinsert, hmirrors⟩ := h.insert hleft key (hc value rfl) hroom rest pad allocated
      simp only [FileCall.onFiles, hinsert]
      exact ⟨rfl, hmirrors⟩
  | read key allocated =>
    obtain ⟨hread, hmirrors⟩ := h.read key allocated
    refine ⟨?_, hmirrors⟩
    simp only [FileCall.onFiles, FileCall.onMap, hread]
    cases (t.backend.readRecord t.stores key.toInt allocated).1 <;> rfl
  | evict key =>
    have hserver := congrArg (Backend.evict · key) h.server
    exact ⟨rfl, ⟨h.holds, h.writable, hserver, h.backend, h.marked⟩⟩
  | renew next =>
    obtain ⟨w', hrenew, hmirrors⟩ := h.renew next
    simp only [FileCall.onFiles, hrenew]
    exact ⟨rfl, hmirrors⟩

/-- Only an insert meets a lock, and then it does not answer. -/
theorem Mirrors.waits (h : Mirrors n w t) {c : FileCall} (hc : c.Storable)
    {server : Cache} {b : TmdbBackend} {done : List FileCall} (ht : watched server b done = t)
    (hleft : ¬NoLockLeft server b done c) : (c.onFiles w).1 = .error (.halt .waits) := by
  match c, hc, hleft with
  | .insert key (value :: rest) pad allocated, hc, hleft =>
    have hmarks : t.marks.left = true := by
      rw [NoLockLeft, ht, Bool.not_eq_false] at hleft
      exact hleft
    change Except.map _ (w.insertRecord key (value :: rest) pad allocated).1 = _
    rw [h.insert_waits hmarks key (hc value rfl) rest pad allocated]
    rfl
  | .insert _ [] _ _, _, hleft | .read .., _, hleft | .evict _, _, hleft
  | .renew _, _, hleft => exact absurd trivial hleft

end Mirrors

/-- What a sequence of calls adds to a file at most. -/
def growth (calls : List FileCall) : Nat := (calls.map FileCall.growth).sum

end CachelibArchive.Backend
