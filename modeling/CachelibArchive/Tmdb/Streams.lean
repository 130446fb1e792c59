import CachelibArchive.Core.Stdio
import CachelibArchive.Tmdb.Database

/-!
# The store over any streams

The functions of the store once more, over streams that may deliver bytes of an
older file. Over plain streams they are the functions on the two files.
-/

namespace CachelibArchive.Tmdb.Streams

/-- The handle, with its streams. -/
structure Handle (σ : Type) where
  idx : σ
  dat : σ
  hash : Nat
  idxoff : Int
  preidx : Int
  keyPtrPos : Int
  datoff : Int
  idxLock : FileLock
  datLock : FileLock

/-- What the loop of `_db_find_and_lock` leaves behind when it breaks. -/
structure Found (σ : Type) where
  find : Bool
  keyPtrPos : Int
  dataPtr : Int
  idx : σ

variable {σ : Type} (io : Stdio σ)

/-! ## Opening -/

/-- `_db_create`. -/
def dbCreate (idx dat : σ) : σ × σ :=
  let zero := LittleEndian.ofInt tdbIntSize 0
  let ozero := LittleEndian.ofInt tdbOffSize 0
  let idx := io.fwrite (io.fseeko idx 0) true zero
  let idx := io.fwrite (io.fseeko idx
    (tdbIndexHeaderLen + tdbMaxHashBucket * tdbOffSize - tdbOffSize : Nat)) true ozero
  let dat := io.fseeko dat 0
  let dat := io.fwrite (io.fseeko dat (tdbDataHeaderLen - tdbIntSize : Nat)) true zero
  (io.fflush idx, io.fflush dat)

/-- `_db_alloc`. -/
def dbAlloc (idx dat : σ) : Handle σ := ⟨idx, dat, 0, 0, 0, 0, 0, .unlocked, .unlocked⟩

/-- `_db_open`. -/
def dbOpen (disk : Disk) (mode : OpenMode) : Option (Handle σ) :=
  let fresh : σ := io.fopen ByteFile.empty true
  let create := dbCreate io fresh fresh
  match mode, disk.idx, disk.dat with
  | .create, _, _ | _, none, _ => some (dbAlloc create.1 create.2)
  | _, some _, none => none
  | .read, some idx, some dat => some (dbAlloc (io.fopen idx false) (io.fopen dat false))
  | .write, some idx, some dat => some (dbAlloc (io.fopen idx true) (io.fopen dat true))

/-! ## The search -/

/-- One pass of the search loop: seek and read a record. -/
def readRecord (idx : σ) (p : Int) : List UInt8 × σ := io.fread (io.fseeko idx p) keyRecordSize

/-- The `while(1)` loop of `_db_find_and_lock`, for so many passes. -/
def findLoop (key : CString) : Nat → σ → Int → Except Fault (Found σ)
  | 0, _, _ => .error .diverge
  | passes + 1, idx, keyPtrPos =>
    let (record, idx) := readRecord io idx keyPtrPos
    if record.length ≠ keyRecordSize then .error .exit
    else match recordKey record with
      | none => .error .overrun
      | some k =>
        if k = key.bytes then .ok ⟨true, keyPtrPos, recordDataPtr record, idx⟩
        else if recordNextPtr record = 0 then .ok ⟨false, keyPtrPos, recordDataPtr record, idx⟩
        else findLoop key passes idx (recordNextPtr record)

/-- `flock` on both descriptors. -/
def Handle.lock (h : Handle σ) (l : FileLock) : Handle σ := { h with idxLock := l, datLock := l }

/-- The eight bytes read for the bucket of a key. -/
def readBucket (idx : σ) (key : CString) : List UInt8 × σ :=
  io.fread (io.fseeko idx (tdbIndexHeaderLen + dbHash key * tdbOffSize : Nat)) tdbOffSize

/-- `_db_find_and_lock`. -/
def dbFindAndLock (passes : Nat) (h : Handle σ) (key : CString) (isWrite : Bool) :
    Except Fault KeyStatus × Handle σ :=
  let h := { h with hash := dbHash key }
  let h := h.lock (if isWrite then .exclusive else .shared)
  let (buf, idx) := readBucket io h.idx key
  if buf.length ≠ tdbOffSize then (.ok .error, { h with idx := idx })
  else
    let keyPtrPos := LittleEndian.toInt buf
    let h := { h with idx := idx, keyPtrPos := keyPtrPos }
    if keyPtrPos = 0 then (.ok .first, { h with idxoff := 0 })
    else match findLoop io key passes idx keyPtrPos with
      | .error fault => (.error fault, h)
      | .ok found =>
        let h := { h with
          idx := found.idx, preidx := io.ftell found.idx, idxoff := found.keyPtrPos }
        if found.find then (.ok .exist, { h with datoff := found.dataPtr })
        else (.ok .notExist, h)

/-! ## The operations -/

/-- `_write_data_record`. -/
def writeDataRecord (accepts : WriteSite → Bool) (dat : σ) (r : DataRecord) : σ :=
  let dat := io.fwrite dat (accepts .dataFlag) (LittleEndian.ofInt tdbIntSize r.flag)
  let dat := io.fwrite dat (accepts .dataLen) (LittleEndian.ofInt tdbIntSize r.len)
  let dat := io.fwrite dat (accepts .dataBytes) r.data.bytes
  io.fwrite dat (accepts .dataNext) (LittleEndian.ofInt tdbOffSize r.next)

/-- The data-file half of `_db_store`. -/
def storeData (accepts : WriteSite → Bool) (dat : σ) (value : CString) : Nat × σ :=
  let dat := io.fseekEnd dat 0
  let recordPos := io.ftell dat
  let record : DataRecord := ⟨0, value.length, value, 0⟩
  if recordPos < tdbDataHeaderLen + dataRecordSize then
    (recordPos, io.fflush (writeDataRecord io accepts dat record))
  else
    let dat := io.fwrite (io.fseekEnd dat (-tdbOffSize : Int)) (accepts .patchNext)
      (LittleEndian.ofInt tdbOffSize recordPos)
    (recordPos, io.fflush (writeDataRecord io accepts dat record))

/-- The index-file half of `_db_store` for an absent key. -/
def storeKey (accepts : WriteSite → Bool) (h : Handle σ) (ret : KeyStatus) (key : CString)
    (pad : UInt32) (recordPos : Nat) : σ :=
  let idx := io.fseekEnd h.idx 0
  let keyPtrPos := io.ftell idx
  let idx := io.fwrite idx (accepts .keyRecord) (keyRecordBytes key pad recordPos 0)
  let idx := if ret = .first then
      io.fseeko idx (tdbIndexHeaderLen + h.hash * tdbOffSize : Nat)
    else io.fseeko idx (h.preidx - tdbOffSize)
  io.fflush (io.fwrite idx (accepts .link) (LittleEndian.ofInt tdbOffSize keyPtrPos))

/-- `_db_store`. -/
def dbStore (passes : Nat) (accepts : WriteSite → Bool) (h : Handle σ) (key value : CString)
    (mode : StoreMode) (pad : UInt32) : Except Fault Status × Handle σ :=
  if mode = .other then (.ok .error, h)
  else if key.length ≤ 0 ∨ tdbMaxKeyLen < key.length then (.ok .error, h)
  else if tdbMaxRecordLen < value.length then (.ok .error, h)
  else match dbFindAndLock io passes h key true with
    | (.error fault, h) => (.error fault, h)
    | (.ok .error, h) => (.ok .error, h)
    | (.ok ret, h) =>
      if mode = .insert ∧ ret = .exist then (.ok .ok, h.lock .unlocked)
      else if mode = .replace ∧ (ret = .first ∨ ret = .notExist) then
        (.ok .ok, h.lock .unlocked)
      else
        let (recordPos, dat) := storeData io accepts h.dat value
        let h := { h with dat := dat }
        if ret = .first ∨ ret = .notExist then
          let idx := storeKey io accepts h ret key pad recordPos
          (.ok .success, { h with idx := idx }.lock .unlocked)
        else
          -- the offset of `data_ptr` without the padding in front of it
          let idx := io.fwrite (io.fseeko h.idx (h.idxoff + tdbIntSize + tdbMaxKeyLen))
            (accepts .dataPtr) (LittleEndian.ofInt tdbOffSize recordPos)
          (.ok .success, { h with idx := io.fflush idx }.lock .unlocked)

/-- The part both branches of `_db_delete` share. -/
def markDeleted (idx : σ) (idxoff : Int) : List UInt8 × σ :=
  let idx := io.fwrite (io.fseeko idx idxoff) true (LittleEndian.ofInt tdbIntSize 1)
  io.fread (io.fseekCur idx (tdbMaxKeyLen + tdbPrtSize : Nat)) tdbPrtSize

/-- `_db_delete`. -/
def dbDelete (passes : Nat) (h : Handle σ) (key : CString) : Except Fault Status × Handle σ :=
  if key.length ≤ 0 ∨ tdbMaxKeyLen < key.length then (.ok .error, h)
  else match dbFindAndLock io passes h key true with
    | (.error fault, h) => (.error fault, h)
    | (.ok .error, h) => (.ok .error, h)
    | (.ok .first, h) | (.ok .notExist, h) => (.ok .ok, h)
    | (.ok .exist, h) =>
      let (buf, idx) := markDeleted io h.idx h.idxoff
      if buf.length ≠ tdbPrtSize then (.error .exit, { h with idx := idx })
      else
        let keyNextPtr := LittleEndian.ofInt tdbPrtSize (LittleEndian.toInt buf)
        let idx := if h.keyPtrPos = h.idxoff then
            io.fseeko idx (tdbIndexHeaderLen + h.hash * tdbIntSize : Nat)
          else io.fseeko idx (h.preidx + tdbIntSize + tdbMaxKeyLen + tdbPrtSize)
        (.ok .success, { h with idx := io.fflush (io.fwrite idx true keyNextPtr) }.lock .unlocked)

/-- The data-file half of `_db_fetch`. -/
def fetchData (dat : σ) (datoff : Int) : Except Fault CString × σ :=
  let (buf, dat) := io.fread (io.fseeko dat (datoff + tdbIntSize)) tdbIntSize
  if buf.length ≠ tdbIntSize then (.error .exit, dat)
  else
    let len := (LittleEndian.toInt buf % (2 ^ 64 : Nat)).toNat
    let (data, dat) := io.fread dat len
    if tdbMaxRecordLen < data.length then (.error .overrun, dat)
    else if data.length ≠ len then (.error .exit, dat)
    else if data.length = tdbMaxRecordLen ∧ (0 : UInt8) ∉ data then (.error .overrun, dat)
    else (.ok (CString.ofBytes data), dat)

/-- `_db_fetch`; `none` is the null pointer. -/
def dbFetch (passes : Nat) (h : Handle σ) (key : CString) :
    Except Fault (Option CString) × Handle σ :=
  if key.length ≤ 0 ∨ tdbMaxKeyLen < key.length then (.ok none, h)
  else match dbFindAndLock io passes h key false with
    | (.error fault, h) => (.error fault, h)
    | (.ok .exist, h) =>
      match fetchData io h.dat h.datoff with
      | (.error fault, dat) => (.error fault, { h with dat := dat })
      | (.ok value, dat) => (.ok (some value), { h with dat := dat }.lock .unlocked)
    | (.ok _, h) => (.ok none, h)

/-! ## Plain streams -/

/-- A handle on the two files, as one with streams. -/
def ofTDB (db : TDB) : Handle FileStream :=
  ⟨db.idx, db.dat, db.hash, db.idxoff, db.preidx, db.keyPtrPos, db.datoff, db.idxLock, db.datLock⟩

/-- Over plain streams opening is opening the two files. -/
theorem dbOpen_plain (disk : Disk) (mode : OpenMode) :
    dbOpen Stdio.plain disk mode = (Tmdb.dbOpen disk mode).map ofTDB := by
  cases disk with
  | mk idx dat => cases mode <;> cases idx <;> cases dat <;> rfl

theorem findLoop_plain (key : CString) (passes : Nat) (idx : FileStream) (p : Int) :
    findLoop Stdio.plain key passes idx p =
      (Tmdb.findLoop key passes idx p).map fun f => ⟨f.find, f.keyPtrPos, f.dataPtr, f.idx⟩ := by
  induction passes generalizing idx p with
  | zero => rfl
  | succ passes ih =>
    rw [findLoop, Tmdb.findLoop]
    have hread : readRecord Stdio.plain idx p = (idx.fseeko p).fread keyRecordSize := rfl
    rw [hread]
    dsimp only
    generalize (idx.fseeko p).fread keyRecordSize = r
    by_cases hlen : r.1.length ≠ keyRecordSize
    · simp only [if_pos hlen]
      rfl
    · simp only [if_neg hlen]
      cases recordKey r.1 with
      | none => rfl
      | some k =>
        dsimp only
        split_ifs
        · rfl
        · rfl
        · exact ih ..

/-- The search over plain streams is the search on the two files. -/
theorem dbFindAndLock_plain (db : TDB) (key : CString) (isWrite : Bool) :
    dbFindAndLock Stdio.plain (db.idx.file.size + 1) (ofTDB db) key isWrite =
      ((Tmdb.dbFindAndLock db key isWrite).1, ofTDB (Tmdb.dbFindAndLock db key isWrite).2) := by
  have hread : readBucket Stdio.plain (ofTDB db).idx key =
      (db.idx.fseeko (tdbIndexHeaderLen + dbHash key * tdbOffSize : Nat)).fread tdbOffSize := rfl
  have hfile : ((db.idx.fseeko (tdbIndexHeaderLen + dbHash key * tdbOffSize : Nat)).fread
      tdbOffSize).2.file.size = db.idx.file.size := by simp
  simp only [dbFindAndLock, Tmdb.dbFindAndLock, Handle.lock, TDB.lock, hread, hfile, findLoop_plain]
  by_cases hlen : ((db.idx.fseeko (tdbIndexHeaderLen + dbHash key * tdbOffSize : Nat)).fread
      tdbOffSize).1.length ≠ tdbOffSize
  · simp only [if_pos hlen]
    rfl
  · simp only [if_neg hlen]
    by_cases hzero : LittleEndian.toInt ((db.idx.fseeko
        (tdbIndexHeaderLen + dbHash key * tdbOffSize : Nat)).fread tdbOffSize).1 = 0
    · simp only [if_pos hzero]
      rfl
    · simp only [if_neg hzero]
      cases Tmdb.findLoop key (db.idx.file.size + 1) _ _ with
      | error fault => rfl
      | ok found =>
        simp only [Except.map]
        split_ifs <;> rfl

theorem storeData_plain (accepts : WriteSite → Bool) (dat : FileStream) (value : CString) :
    storeData Stdio.plain accepts dat value = Tmdb.storeData accepts dat value := by
  simp only [storeData, Tmdb.storeData, writeDataRecord, Tmdb.writeDataRecord, Stdio.plain, id]
  rfl

theorem storeKey_plain (accepts : WriteSite → Bool) (db : TDB) (ret : KeyStatus) (key : CString)
    (pad : UInt32) (recordPos : Nat) : storeKey Stdio.plain accepts (ofTDB db) ret key pad recordPos =
      Tmdb.storeKey accepts db ret key pad recordPos := by
  simp only [storeKey, Tmdb.storeKey, ofTDB, Stdio.plain, id]

theorem markDeleted_plain (idx : FileStream) (idxoff : Int) :
    markDeleted Stdio.plain idx idxoff = Tmdb.markDeleted idx idxoff := by
  simp only [markDeleted, Tmdb.markDeleted, Stdio.plain]

theorem fetchData_plain (dat : FileStream) (datoff : Int) :
    fetchData Stdio.plain dat datoff = Tmdb.fetchData dat datoff := by
  simp only [fetchData, Tmdb.fetchData, Stdio.plain]
  rfl

/-- So is a store. -/
theorem dbStore_plain (accepts : WriteSite → Bool) (db : TDB) (key value : CString)
    (mode : StoreMode) (pad : UInt32) :
    dbStore Stdio.plain (db.idx.file.size + 1) accepts (ofTDB db) key value mode pad =
      ((Tmdb.dbStore accepts db key value mode pad).1,
        ofTDB (Tmdb.dbStore accepts db key value mode pad).2) := by
  rw [dbStore, Tmdb.dbStore, dbFindAndLock_plain]
  by_cases hmode : mode = .other
  · simp only [if_pos hmode]
  by_cases hkey : key.length ≤ 0 ∨ tdbMaxKeyLen < key.length
  · simp only [if_neg hmode, if_pos hkey]
  by_cases hvalue : tdbMaxRecordLen < value.length
  · simp only [if_neg hmode, if_neg hkey, if_pos hvalue]
  simp only [if_neg hmode, if_neg hkey, if_neg hvalue]
  generalize Tmdb.dbFindAndLock db key true = r
  obtain ⟨ret, db'⟩ := r
  have hdata : storeData Stdio.plain accepts (ofTDB db').dat value =
      Tmdb.storeData accepts db'.dat value := storeData_plain ..
  have hidx (dat : FileStream) (ret : KeyStatus) (recordPos : Nat) :
      storeKey Stdio.plain accepts { ofTDB db' with dat } ret key pad recordPos =
        Tmdb.storeKey accepts { db' with dat } ret key pad recordPos := storeKey_plain ..
  have hover (recordPos : Nat) : Stdio.plain.fflush (Stdio.plain.fwrite (Stdio.plain.fseeko
      (ofTDB db').idx ((ofTDB db').idxoff + tdbIntSize + tdbMaxKeyLen)) (accepts .dataPtr)
        (LittleEndian.ofInt tdbOffSize recordPos)) =
      (db'.idx.fseeko (db'.idxoff + tdbIntSize + tdbMaxKeyLen)).fwrite (accepts .dataPtr)
        (LittleEndian.ofInt tdbOffSize recordPos) := rfl
  rcases ret with fault | ret
  · rfl
  · cases ret with
    | error => rfl
    | first | notExist | exist =>
      simp only [hdata, hidx, hover]
      generalize Tmdb.storeData accepts db'.dat value = stored
      split_ifs <;> rfl

/-- So is a deletion. -/
theorem dbDelete_plain (db : TDB) (key : CString) :
    dbDelete Stdio.plain (db.idx.file.size + 1) (ofTDB db) key =
      ((Tmdb.dbDelete db key).1, ofTDB (Tmdb.dbDelete db key).2) := by
  rw [dbDelete, Tmdb.dbDelete, dbFindAndLock_plain]
  by_cases hkey : key.length ≤ 0 ∨ tdbMaxKeyLen < key.length
  · simp only [if_pos hkey]
  simp only [if_neg hkey]
  generalize Tmdb.dbFindAndLock db key true = r
  obtain ⟨ret, db'⟩ := r
  rcases ret with fault | ret
  · rfl
  · cases ret with
    | first | notExist | error => rfl
    | exist =>
      simp only [ofTDB, markDeleted_plain]
      generalize Tmdb.markDeleted db'.idx db'.idxoff = marked
      by_cases hlen : marked.1.length ≠ tdbPrtSize
      · simp only [if_pos hlen]
      · simp only [if_neg hlen]
        rfl

/-- So is a fetch. -/
theorem dbFetch_plain (db : TDB) (key : CString) :
    dbFetch Stdio.plain (db.idx.file.size + 1) (ofTDB db) key =
      ((Tmdb.dbFetch db key).1, ofTDB (Tmdb.dbFetch db key).2) := by
  rw [dbFetch, Tmdb.dbFetch, dbFindAndLock_plain]
  by_cases hkey : key.length ≤ 0 ∨ tdbMaxKeyLen < key.length
  · simp only [if_pos hkey]
  simp only [if_neg hkey]
  generalize Tmdb.dbFindAndLock db key false = r
  obtain ⟨ret, db'⟩ := r
  rcases ret with fault | ret
  · rfl
  · cases ret with
    | first | notExist | error => rfl
    | exist =>
      simp only [ofTDB, fetchData_plain]
      obtain ⟨value, dat⟩ := Tmdb.fetchData db'.dat db'.datoff
      cases value <;> rfl

end CachelibArchive.Tmdb.Streams
