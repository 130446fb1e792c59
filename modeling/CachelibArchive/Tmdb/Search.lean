import CachelibArchive.Tmdb.Index
import Mathlib.Data.List.Perm.Subperm

/-!
# The bucket search on a trail

A trail is what the loop of `_db_find_and_lock` visits from a pointer: whole
records, each with the string it compares there, up to a zero next pointer. On
a trail the loop returns, finds the first stop with the key, and otherwise ends
at the last one with `preidx` just behind it. Chains of the invariant are
trails; so is whatever a damaged pointer happens to lead to, as long as it ends.
-/

namespace CachelibArchive.Tmdb

/-! ## Trails -/

/-- A place the loop stops at: the offset of the record and the key it compares. -/
structure Stop where
  off : Nat
  name : List UInt8

/-- The record at a stop is whole and its key compares as the name. -/
structure Stop.In (s : Stop) (f : ByteFile) : Prop where
  pos : 0 < s.off
  whole : s.off + keyRecordSize ≤ f.size
  name : recordKey (f.read s.off keyRecordSize) = some s.name

/-- The stops of the loop from a pointer to a zero next pointer. -/
structure Trail (f : ByteFile) (p : Int) (T : List Stop) : Prop where
  stops : ∀ s ∈ T, s.In f
  chain : Linked.Chain (fun s : Stop => (s.off : Int)) (fun s => nextPtr f s.off) 0 p T

@[simp] theorem trail_nil {f : ByteFile} {p : Int} : Trail f p [] ↔ p = 0 :=
  ⟨fun h => h.chain, fun h => ⟨by simp, h⟩⟩

theorem trail_cons {f : ByteFile} {p : Int} {s : Stop} {T : List Stop} :
    Trail f p (s :: T) ↔ p = s.off ∧ s.In f ∧ Trail f (nextPtr f s.off) T := by
  constructor
  · intro h
    exact ⟨h.chain.1, h.stops s List.mem_cons_self,
      fun x hx => h.stops x (List.mem_cons_of_mem s hx), h.chain.2⟩
  · rintro ⟨hp, hs, ht⟩
    exact ⟨List.forall_mem_cons.mpr ⟨hs, ht.stops⟩, hp, ht.chain⟩

/-- The pointer to a nonempty trail is not zero. -/
theorem Trail.ne_zero {f : ByteFile} {p : Int} {T : List Stop} (h : Trail f p T)
    (hne : T ≠ []) : p ≠ 0 := by
  cases T with
  | nil => contradiction
  | cons s T =>
    obtain ⟨hp, hs, _⟩ := trail_cons.mp h
    have hpos := hs.pos
    omega

/-- The stops of a trail start at distinct offsets inside the file, so a trail is
never longer than the search is allowed to run. -/
theorem Trail.length_le {f : ByteFile} {p : Int} {T : List Stop} (h : Trail f p T) :
    T.length ≤ f.size := by
  have hn : (T.map Stop.off).Nodup := by
    have hi := h.chain.nodup
      (fun a b hab => by rw [show a.off = b.off from Int.natCast_inj.mp hab])
      (fun a ha => by have hpos := (h.stops a ha).pos; omega)
    apply List.Nodup.of_map (fun n : Nat => (n : Int))
    rwa [List.map_map]
  have hsub : T.map Stop.off ⊆ List.range f.size := by
    intro q hq
    obtain ⟨s, hs, rfl⟩ := List.mem_map.mp hq
    have hw := (h.stops s hs).whole
    rw [List.mem_range]
    simp only [keyRecordSize] at hw
    omega
  simpa using (List.Nodup.subperm hn hsub).length_le

/-- The stop a written record is. -/
def Entry.stop (e : Entry) : Stop := ⟨e.off, e.key.str.bytes⟩

theorem Entry.In.stop {e : Entry} {f : ByteFile} (h : e.In f) : e.stop.In f := by
  refine ⟨?_, h.whole, recordKey_read h.key⟩
  have hp := h.past
  simp only [tableEnd] at hp
  show 0 < e.off
  omega

/-- Chains of written records are trails. -/
theorem Chained.trail {f : ByteFile} {p : Int} {L : List Entry} (hc : Chained f p L)
    (hall : ∀ e ∈ L, e.In f) : Trail f p (L.map Entry.stop) := by
  refine ⟨?_, (Linked.chain_map Entry.stop).mpr hc⟩
  intro s hs
  obtain ⟨e, he, rfl⟩ := List.mem_map.mp hs
  exact (hall e he).stop

/-! ## The loop -/

/-- One pass of the loop on a whole record. -/
theorem findLoop_stop (idx : FileStream) {s : Stop} (h : s.In idx.file) (key : CString)
    (fuel : Nat) :
    findLoop key (fuel + 1) idx s.off =
      let idx' : FileStream := { idx with pos := s.off + keyRecordSize }
      if s.name = key.bytes then .ok ⟨true, s.off, dataPtr idx.file s.off, idx'⟩
      else if nextPtr idx.file s.off = 0 then
        .ok ⟨false, s.off, dataPtr idx.file s.off, idx'⟩
      else findLoop key fuel idx' (nextPtr idx.file s.off) := by
  have hr : (idx.fseeko s.off).fread keyRecordSize =
      (idx.file.read s.off keyRecordSize, { idx with pos := s.off + keyRecordSize }) := by
    rw [FileStream.fseeko_natCast, FileStream.fread_of_le h.whole]
  rw [findLoop]
  simp only [hr, ByteFile.length_read, ne_eq, not_true_eq_false, ite_false, h.name,
    recordNextPtr_read, recordDataPtr_read]

/-- Stops without the key are passed on the way to wherever they lead. -/
theorem findLoop_skip {key : CString} {A : List Stop} (idx : FileStream) {p : Int} {q : Nat}
    (hq : 0 < q) (hin : ∀ s ∈ A, s.In idx.file)
    (hc : Linked.Chain (fun s : Stop => (s.off : Int)) (fun s => nextPtr idx.file s.off) q p A)
    (hf : ∀ s ∈ A, s.name ≠ key.bytes) (fuel : Nat) :
    ∃ pos, findLoop key (A.length + fuel) idx p = findLoop key fuel { idx with pos := pos } q := by
  induction A generalizing idx p with
  | nil =>
    obtain rfl : p = q := hc
    exact ⟨idx.pos, by rw [List.length_nil, Nat.zero_add]⟩
  | cons x A ih =>
    obtain ⟨rfl, hrest⟩ := hc
    have hnext : nextPtr idx.file x.off ≠ 0 := by
      cases A with
      | nil =>
        have hlink : nextPtr idx.file x.off = q := hrest
        omega
      | cons y A =>
        have hlink : nextPtr idx.file x.off = y.off := hrest.1
        have hpos := (hin y (by simp)).pos
        omega
    obtain ⟨pos, hloop⟩ := ih { idx with pos := x.off + keyRecordSize }
      (fun s hs => hin s (List.mem_cons_of_mem x hs)) hrest
      (fun s hs => hf s (List.mem_cons_of_mem x hs))
    refine ⟨pos, ?_⟩
    rw [List.length_cons, Nat.add_right_comm, findLoop_stop idx (hin x List.mem_cons_self)]
    simp only [hf x List.mem_cons_self, hnext, ite_false]
    exact hloop

/-- A stop with the key ends the loop, wherever its own pointer leads. -/
theorem findLoop_at {key : CString} {A : List Stop} {x : Stop} (idx : FileStream) {p : Int}
    (hin : ∀ s ∈ A, s.In idx.file) (hx : x.In idx.file)
    (hc : Linked.Chain (fun s : Stop => (s.off : Int)) (fun s => nextPtr idx.file s.off)
      (x.off : Int) p A)
    (hf : ∀ s ∈ A, s.name ≠ key.bytes) (hname : x.name = key.bytes) {fuel : Nat}
    (hn : A.length < fuel) :
    findLoop key fuel idx p =
      .ok ⟨true, x.off, dataPtr idx.file x.off, { idx with pos := x.off + keyRecordSize }⟩ := by
  obtain ⟨m, rfl⟩ := Nat.exists_eq_add_of_lt hn
  obtain ⟨pos, hloop⟩ := findLoop_skip idx hx.pos hin hc hf (m + 1)
  rw [Nat.add_assoc, hloop, findLoop_stop { idx with pos := pos } hx]
  simp only [hname, ite_true]

/-- A pointer past the end of the file ends the process. -/
theorem findLoop_dangling {key : CString} {A : List Stop} (idx : FileStream) {p : Int} {q : Nat}
    (hin : ∀ s ∈ A, s.In idx.file) (hq : 0 < q) (hpast : idx.file.size ≤ q)
    (hc : Linked.Chain (fun s : Stop => (s.off : Int)) (fun s => nextPtr idx.file s.off)
      (q : Int) p A)
    (hf : ∀ s ∈ A, s.name ≠ key.bytes) {fuel : Nat} (hn : A.length < fuel) :
    findLoop key fuel idx p = .error .exit := by
  obtain ⟨m, rfl⟩ := Nat.exists_eq_add_of_lt hn
  obtain ⟨pos, hloop⟩ := findLoop_skip idx hq hin hc hf (m + 1)
  rw [Nat.add_assoc, hloop, findLoop, FileStream.fseeko_natCast]
  simp only [FileStream.fread, Nat.sub_eq_zero_of_le hpast, Nat.min_zero, ByteFile.read_zero,
    List.length_nil]
  rfl

/-- Without the key the loop ends at the last stop of the trail. -/
theorem findLoop_missing {key : CString} {a : Stop} {T : List Stop} (idx : FileStream)
    {p : Int} (ht : Trail idx.file p (T ++ [a]))
    (hf : ∀ s ∈ T ++ [a], s.name ≠ key.bytes) {fuel : Nat} (hn : T.length < fuel) :
    findLoop key fuel idx p =
      .ok ⟨false, a.off, dataPtr idx.file a.off, { idx with pos := a.off + keyRecordSize }⟩ := by
  have ha := ht.stops a (by simp)
  obtain ⟨hc, hlast⟩ := Linked.chain_append_cons.mp ht.chain
  have hz : nextPtr idx.file a.off = 0 := hlast
  obtain ⟨m, rfl⟩ := Nat.exists_eq_add_of_lt hn
  obtain ⟨pos, hloop⟩ := findLoop_skip idx ha.pos
    (fun s hs => ht.stops s (List.mem_append_left _ hs)) hc
    (fun s hs => hf s (List.mem_append_left _ hs)) (m + 1)
  rw [Nat.add_assoc, hloop, findLoop_stop { idx with pos := pos } ha]
  simp only [hf a (by simp), hz, ite_false, ite_true]

/-! ## The whole search -/

/-- Both files and both open modes are as before. -/
structure SameFiles (db db' : TDB) : Prop where
  idx : db'.idx.file = db.idx.file
  idxWritable : db'.idx.writable = db.idx.writable
  dat : db'.dat.file = db.dat.file
  datWritable : db'.dat.writable = db.dat.writable

theorem SameFiles.lock {db db' : TDB} (h : SameFiles db db') (l : FileLock) :
    SameFiles db (db'.lock l) :=
  ⟨h.idx, h.idxWritable, h.dat, h.datWritable⟩

/-- What every search that returns leaves as it was, and the locks it takes. -/
structure Searched (db : TDB) (key : CString) (lock : FileLock) (db' : TDB) : Prop where
  file : db'.idx.file = db.idx.file
  writable : db'.idx.writable = db.idx.writable
  dat : db'.dat = db.dat
  hash : db'.hash = dbHash key
  idxLock : db'.idxLock = lock
  datLock : db'.datLock = lock

theorem Searched.sameFiles {db db' : TDB} {key : CString} {lock : FileLock}
    (h : Searched db key lock db') : SameFiles db db' :=
  ⟨h.file, h.writable, by rw [h.dat], by rw [h.dat]⟩

/-- The lock a search asks for. -/
def searchLock (isWrite : Bool) : FileLock := if isWrite then .exclusive else .shared

/-- The handle once the locks are taken and the bucket pointer is read. -/
def searchStart (db : TDB) (key : CString) (isWrite : Bool) : TDB :=
  { db.lock (searchLock isWrite) with
    hash := dbHash key
    idx := { db.idx with pos := bucketOff (dbHash key) + 8 }
    keyPtrPos := bucketPtr db.idx.file (dbHash key) }

@[simp] theorem searchStart_keyPtrPos (db : TDB) (key : CString) (isWrite : Bool) :
    (searchStart db key isWrite).keyPtrPos = bucketPtr db.idx.file (dbHash key) := rfl

@[simp] theorem searchStart_idx (db : TDB) (key : CString) (isWrite : Bool) :
    (searchStart db key isWrite).idx = { db.idx with pos := bucketOff (dbHash key) + 8 } := rfl

/-- What the search makes of the way its loop ended. -/
def searchEnd (start : TDB) : Except Fault Found → Except Fault KeyStatus × TDB
  | .error fault => (.error fault, start)
  | .ok found =>
    let db := { start with
      idx := found.idx, preidx := found.idx.pos, idxoff := found.keyPtrPos }
    if found.find then (.ok .exist, { db with datoff := found.dataPtr }) else (.ok .notExist, db)

/-- A file that holds the table holds every bucket. -/
theorem bucketOff_le {n : Nat} (ht : tableEnd ≤ n) (key : CString) :
    bucketOff (dbHash key) + 8 ≤ n := by
  have hlt := dbHash_lt key
  simp at hlt ht ⊢
  omega

/-- Reading the bucket pointer. -/
theorem fread_bucket {idx : FileStream} {key : CString}
    (hle : bucketOff (dbHash key) + 8 ≤ idx.file.size) :
    (idx.fseeko (tdbIndexHeaderLen + dbHash key * tdbOffSize : Nat)).fread tdbOffSize =
      (idx.file.read (bucketOff (dbHash key)) 8,
        { idx with pos := bucketOff (dbHash key) + 8 }) := by
  rw [FileStream.fseeko_natCast, FileStream.fread_of_le]
  · rfl
  · exact hle

/-- The search once its bucket pointer has been read. -/
theorem dbFindAndLock_eq {db : TDB} {key : CString}
    (hle : bucketOff (dbHash key) + 8 ≤ db.idx.file.size) (isWrite : Bool) :
    dbFindAndLock db key isWrite =
      let start := searchStart db key isWrite
      if start.keyPtrPos = 0 then (.ok .first, { start with idxoff := 0 })
      else searchEnd start
        (findLoop key (start.idx.file.size + 1) start.idx start.keyPtrPos) := by
  unfold dbFindAndLock
  simp only [TDB.lock, fread_bucket hle]
  simp only [ByteFile.length_read, tdbOffSize, ne_eq, not_true_eq_false, ite_false, searchStart,
    TDB.lock, searchLock, bucketPtr]
  by_cases hz : LittleEndian.toInt (db.idx.file.read (bucketOff (dbHash key)) 8) = 0
  · simp only [hz, ite_true]
  · simp only [hz, ite_false]
    generalize findLoop key (db.idx.file.size + 1) _ _ = r
    cases r with
    | error fault => rfl
    | ok found => rfl

/-- The search when the bucket pointer lies past the end of the file. -/
theorem dbFindAndLock_error {db : TDB} {key : CString}
    (hlt : ¬bucketOff (dbHash key) + 8 ≤ db.idx.file.size) (isWrite : Bool) :
    ∃ db', dbFindAndLock db key isWrite = (.ok .error, db') ∧
      Searched db key (searchLock isWrite) db' := by
  have hb : ((db.idx.fseeko (tdbIndexHeaderLen + dbHash key * tdbOffSize : Nat)).fread
      tdbOffSize).1.length ≠ tdbOffSize := by
    rw [Ne, FileStream.length_fread_eq_iff (by decide), FileStream.fseeko_natCast]
    exact hlt
  unfold dbFindAndLock
  simp only [TDB.lock, hb, ne_eq, not_false_eq_true, ite_true]
  refine ⟨_, rfl, ?_, ?_, rfl, rfl, rfl, rfl⟩
  · rw [FileStream.file_fread, FileStream.file_fseeko]
  · rw [FileStream.writable_fread, FileStream.writable_fseeko]

/-- The search reads only the index file. -/
theorem dbFindAndLock_dat (db : TDB) (key : CString) (isWrite : Bool) :
    (dbFindAndLock db key isWrite).2.dat = db.dat := by
  by_cases hle : bucketOff (dbHash key) + 8 ≤ db.idx.file.size
  · rw [dbFindAndLock_eq hle]
    simp only
    split
    · rfl
    · generalize findLoop key _ _ _ = r
      cases r with
      | error fault => rfl
      | ok found =>
        rw [searchEnd]
        split <;> rfl
  · obtain ⟨db', hs, h⟩ := dbFindAndLock_error hle isWrite
    rw [hs]
    exact h.dat

section

variable {db : TDB} {key : CString} (ht : tableEnd ≤ db.idx.file.size) (isWrite : Bool)

include ht

/-- An empty bucket. -/
theorem dbFindAndLock_first (hz : bucketPtr db.idx.file (dbHash key) = 0) :
    ∃ db', dbFindAndLock db key isWrite = (.ok .first, db') ∧
      Searched db key (searchLock isWrite) db' := by
  refine ⟨{ searchStart db key isWrite with idxoff := 0 }, ?_, ⟨rfl, rfl, rfl, rfl, rfl, rfl⟩⟩
  rw [dbFindAndLock_eq (bucketOff_le ht key)]
  simp only [searchStart_keyPtrPos, hz, ite_true]

/-- A bucket that leads to a record with the key: where the record is, what it points to
and whether it is the head. -/
theorem dbFindAndLock_at {x : Stop} {A : List Stop} (hin : ∀ s ∈ A, s.In db.idx.file)
    (hx : x.In db.idx.file)
    (hc : Linked.Chain (fun s : Stop => (s.off : Int)) (fun s => nextPtr db.idx.file s.off)
      (x.off : Int) (bucketPtr db.idx.file (dbHash key)) A)
    (hf : ∀ s ∈ A, s.name ≠ key.bytes) (hname : x.name = key.bytes)
    (hn : A.length ≤ db.idx.file.size) :
    ∃ db', dbFindAndLock db key isWrite = (.ok .exist, db') ∧
      Searched db key (searchLock isWrite) db' ∧
      db'.keyPtrPos = bucketPtr db.idx.file (dbHash key) ∧ db'.idxoff = x.off ∧
      db'.preidx = (x.off + keyRecordSize : Nat) ∧
      db'.datoff = dataPtr db.idx.file x.off := by
  have hne : bucketPtr db.idx.file (dbHash key) ≠ 0 := by
    cases A with
    | nil =>
      have hlink : bucketPtr db.idx.file (dbHash key) = x.off := hc
      have hpos := hx.pos
      omega
    | cons a A =>
      have hlink : bucketPtr db.idx.file (dbHash key) = a.off := hc.1
      have hpos := (hin a List.mem_cons_self).pos
      omega
  have hloop := findLoop_at { db.idx with pos := bucketOff (dbHash key) + 8 } hin hx hc hf hname
    (Nat.lt_succ_of_le hn)
  refine ⟨{ searchStart db key isWrite with
      idx := { db.idx with pos := x.off + keyRecordSize }
      preidx := (x.off + keyRecordSize : Nat)
      idxoff := x.off
      datoff := dataPtr db.idx.file x.off }, ?_, ⟨rfl, rfl, rfl, rfl, rfl, rfl⟩, rfl, rfl,
    rfl, rfl⟩
  rw [dbFindAndLock_eq (bucketOff_le ht key)]
  simp only [searchStart_keyPtrPos, searchStart_idx, hne, hloop, searchEnd, ite_false, ite_true]

/-- A bucket whose trail meets the key. -/
theorem dbFindAndLock_exist {s : Stop} {T : List Stop}
    (hc : Trail db.idx.file (bucketPtr db.idx.file (dbHash key)) T)
    (hf : T.find? (fun x => x.name = key.bytes) = some s) :
    ∃ db', dbFindAndLock db key isWrite = (.ok .exist, db') ∧
      Searched db key (searchLock isWrite) db' ∧
      db'.keyPtrPos = bucketPtr db.idx.file (dbHash key) ∧ db'.idxoff = s.off ∧
      db'.preidx = (s.off + keyRecordSize : Nat) ∧
      db'.datoff = dataPtr db.idx.file s.off := by
  have hlen := hc.length_le
  obtain ⟨hname, A, B, rfl, hA⟩ := List.find?_eq_some_iff_append.mp hf
  rw [List.length_append] at hlen
  refine dbFindAndLock_at ht isWrite (fun x hx => hc.stops x (List.mem_append_left _ hx))
    (hc.stops s (by simp)) (Linked.chain_append_cons.mp hc.chain).1 (fun x hx => ?_)
    (of_decide_eq_true hname) (Nat.le_of_add_right_le hlen)
  simpa using hA x hx

/-- A bucket that leads past the end of the file without the key. -/
theorem dbFindAndLock_dangling {A : List Stop} {q : Nat} (hin : ∀ s ∈ A, s.In db.idx.file)
    (hpast : db.idx.file.size ≤ q)
    (hc : Linked.Chain (fun s : Stop => (s.off : Int)) (fun s => nextPtr db.idx.file s.off)
      (q : Int) (bucketPtr db.idx.file (dbHash key)) A)
    (hf : ∀ s ∈ A, s.name ≠ key.bytes) (hn : A.length ≤ db.idx.file.size) :
    (dbFindAndLock db key isWrite).1 = .error .exit := by
  simp only [tableEnd] at ht
  have hne : bucketPtr db.idx.file (dbHash key) ≠ 0 := by
    cases A with
    | nil =>
      have hlink : bucketPtr db.idx.file (dbHash key) = q := hc
      omega
    | cons a A =>
      have hlink : bucketPtr db.idx.file (dbHash key) = a.off := hc.1
      have hpos := (hin a List.mem_cons_self).pos
      omega
  have hloop := findLoop_dangling { db.idx with pos := bucketOff (dbHash key) + 8 } hin
    (by omega) hpast hc hf (Nat.lt_succ_of_le hn)
  rw [dbFindAndLock_eq (bucketOff_le ht key)]
  simp only [searchStart_keyPtrPos, searchStart_idx, hne, hloop, searchEnd, ite_false]

/-- A nonempty bucket without the key: `preidx` is behind the last record. -/
theorem dbFindAndLock_notExist {a : Stop} {T : List Stop}
    (hc : Trail db.idx.file (bucketPtr db.idx.file (dbHash key)) (T ++ [a]))
    (hf : ∀ s ∈ T ++ [a], s.name ≠ key.bytes) :
    ∃ db', dbFindAndLock db key isWrite = (.ok .notExist, db') ∧
      Searched db key (searchLock isWrite) db' ∧
      db'.preidx = (a.off + keyRecordSize : Nat) := by
  have hne := hc.ne_zero (by simp)
  have hlen := hc.length_le
  rw [List.length_append] at hlen
  have hloop := findLoop_missing { db.idx with pos := bucketOff (dbHash key) + 8 } hc hf
    (Nat.lt_succ_of_le (Nat.le_of_add_right_le hlen))
  refine ⟨{ searchStart db key isWrite with
      idx := { db.idx with pos := a.off + keyRecordSize }
      preidx := (a.off + keyRecordSize : Nat)
      idxoff := a.off }, ?_, ⟨rfl, rfl, rfl, rfl, rfl, rfl⟩, rfl⟩
  rw [dbFindAndLock_eq (bucketOff_le ht key)]
  simp only [searchStart_keyPtrPos, searchStart_idx, hne, hloop, searchEnd, ite_false,
    Bool.false_eq_true]

end

/-! ## The search in a well-chained index -/

/-- Where a record that ends the search of a bucket is linked: into the bucket
when the chain is empty, else behind its last record. -/
def linkTarget (h : Nat) (T : List Stop) : Nat :=
  match T.getLast? with
  | none => bucketOff h
  | some a => a.off + 80

/-- A search that does not meet the key, with the offset a store will link at. -/
theorem dbFindAndLock_absent {db : TDB} {key : CString} (ht : tableEnd ≤ db.idx.file.size)
    (isWrite : Bool) {T : List Stop}
    (hc : Trail db.idx.file (bucketPtr db.idx.file (dbHash key)) T)
    (hf : ∀ s ∈ T, s.name ≠ key.bytes) :
    ∃ ret db', dbFindAndLock db key isWrite = (.ok ret, db') ∧
      Searched db key (searchLock isWrite) db' ∧
      (ret = .first ∧ linkTarget (dbHash key) T = bucketOff (dbHash key) ∨
        ret = .notExist ∧ db'.preidx = (linkTarget (dbHash key) T + tdbOffSize : Nat)) := by
  rcases List.eq_nil_or_concat T with rfl | ⟨T, a, rfl⟩
  · obtain ⟨db', hs, h⟩ := dbFindAndLock_first ht isWrite (trail_nil.mp hc)
    exact ⟨.first, db', hs, h, .inl ⟨rfl, rfl⟩⟩
  · rw [List.concat_eq_append] at hc hf
    obtain ⟨db', hs, h, hp⟩ := dbFindAndLock_notExist ht isWrite hc hf
    refine ⟨.notExist, db', hs, h, .inr ⟨rfl, ?_⟩⟩
    rw [hp]
    simp [linkTarget, Nat.add_assoc]

end CachelibArchive.Tmdb
