import CachelibArchive.Tmdb.Handle

/-!
# Store, delete and fetch

The three operations as the source computes them, write by write. Which of the
writes the system accepts is an argument of the store, one answer per `fwrite`
of the source; the padding bytes of a key record come from uninitialised memory
and are an argument too.
-/

namespace CachelibArchive.Tmdb

/-- The `fwrite` calls of `_db_store` and `_write_data_record`, in program order. -/
inductive WriteSite
  | patchNext
  | dataFlag
  | dataLen
  | dataBytes
  | dataNext
  | keyRecord
  | link
  | dataPtr
  deriving DecidableEq, Repr

/-- Every write succeeds. -/
def allAccepted : WriteSite → Bool := fun _ => true

/-- `struct tdb_data_record_t`. -/
structure DataRecord where
  flag : Int
  len : Int
  data : CString
  next : Int

/-- `_write_data_record`. -/
def writeDataRecord (accepts : WriteSite → Bool) (dat : FileStream) (r : DataRecord) :
    FileStream :=
  let dat := dat.fwrite (accepts .dataFlag) (LittleEndian.ofInt tdbIntSize r.flag)
  let dat := dat.fwrite (accepts .dataLen) (LittleEndian.ofInt tdbIntSize r.len)
  let dat := dat.fwrite (accepts .dataBytes) r.data.bytes
  dat.fwrite (accepts .dataNext) (LittleEndian.ofInt tdbOffSize r.next)

/-- The key array and the padding behind it, after `bzero`, `memcpy` and the
store of the terminator at `key[key_len]`; a 64-byte key puts it on the padding. -/
def keyField (key : CString) (pad : UInt32) : List UInt8 :=
  (key.bytes ++ List.replicate (tdbMaxKeyLen - key.length) 0 ++
    LittleEndian.ofNat 4 pad.toNat).set key.length 0

/-- The 88 bytes of a key record. -/
def keyRecordBytes (key : CString) (pad : UInt32) (dataPtr nextPtr : Int) : List UInt8 :=
  LittleEndian.ofInt tdbIntSize 0 ++ keyField key pad ++
    LittleEndian.ofInt tdbOffSize dataPtr ++ LittleEndian.ofInt tdbOffSize nextPtr

/-- The data-file half of `_db_store`: patch the previous record unless the new
one counts as the first, then append. -/
def storeData (accepts : WriteSite → Bool) (dat : FileStream) (value : CString) :
    Nat × FileStream :=
  let dat := dat.fseekEnd 0
  let recordPos := dat.pos
  let record : DataRecord := ⟨0, value.length, value, 0⟩
  if recordPos < tdbDataHeaderLen + dataRecordSize then
    (recordPos, writeDataRecord accepts dat record)
  else
    let dat := (dat.fseekEnd (-tdbOffSize : Int)).fwrite (accepts .patchNext)
      (LittleEndian.ofInt tdbOffSize recordPos)
    (recordPos, writeDataRecord accepts dat record)

/-- The index-file half of `_db_store` for an absent key: append the record, then link it. -/
def storeKey (accepts : WriteSite → Bool) (db : TDB) (ret : KeyStatus) (key : CString)
    (pad : UInt32) (recordPos : Nat) : FileStream :=
  let idx := db.idx.fseekEnd 0
  let keyPtrPos := idx.pos
  let idx := idx.fwrite (accepts .keyRecord) (keyRecordBytes key pad recordPos 0)
  let idx := if ret = .first then
      idx.fseeko (tdbIndexHeaderLen + db.hash * tdbOffSize : Nat)
    else idx.fseeko (db.preidx - tdbOffSize)
  idx.fwrite (accepts .link) (LittleEndian.ofInt tdbOffSize keyPtrPos)

/-- `_db_store`. -/
def dbStore (accepts : WriteSite → Bool) (db : TDB) (key value : CString) (mode : StoreMode)
    (pad : UInt32) : Except Fault Status × TDB :=
  if mode = .other then (.ok .error, db)
  else if key.length ≤ 0 ∨ tdbMaxKeyLen < key.length then (.ok .error, db)
  else if tdbMaxRecordLen < value.length then (.ok .error, db)
  else match dbFindAndLock db key true with
    | (.error fault, db) => (.error fault, db)
    | (.ok .error, db) => (.ok .error, db)
    | (.ok ret, db) =>
      if mode = .insert ∧ ret = .exist then (.ok .ok, db.lock .unlocked)
      else if mode = .replace ∧ (ret = .first ∨ ret = .notExist) then
        (.ok .ok, db.lock .unlocked)
      else
        let (recordPos, dat) := storeData accepts db.dat value
        let db := { db with dat := dat }
        if ret = .first ∨ ret = .notExist then
          let idx := storeKey accepts db ret key pad recordPos
          (.ok .success, { db with idx := idx }.lock .unlocked)
        else
          -- the offset of `data_ptr` without the padding in front of it
          let idx := (db.idx.fseeko (db.idxoff + tdbIntSize + tdbMaxKeyLen)).fwrite
            (accepts .dataPtr) (LittleEndian.ofInt tdbOffSize recordPos)
          (.ok .success, { db with idx := idx }.lock .unlocked)

/-- The part both branches of `_db_delete` share: set the flag, skip the key and
four bytes more, and read four bytes as the next pointer. -/
def markDeleted (idx : FileStream) (idxoff : Int) : List UInt8 × FileStream :=
  let idx := (idx.fseeko idxoff).fwrite true (LittleEndian.ofInt tdbIntSize 1)
  (idx.fseekCur (tdbMaxKeyLen + tdbPrtSize : Nat)).fread tdbPrtSize

/-- `_db_delete`. -/
def dbDelete (db : TDB) (key : CString) : Except Fault Status × TDB :=
  if key.length ≤ 0 ∨ tdbMaxKeyLen < key.length then (.ok .error, db)
  else match dbFindAndLock db key true with
    | (.error fault, db) => (.error fault, db)
    | (.ok .error, db) => (.ok .error, db)
    | (.ok .first, db) | (.ok .notExist, db) => (.ok .ok, db)
    | (.ok .exist, db) =>
      let (buf, idx) := markDeleted db.idx db.idxoff
      if buf.length ≠ tdbPrtSize then (.error .exit, { db with idx := idx })
      else
        let keyNextPtr := LittleEndian.ofInt tdbPrtSize (LittleEndian.toInt buf)
        let idx := if db.keyPtrPos = db.idxoff then
            idx.fseeko (tdbIndexHeaderLen + db.hash * tdbIntSize : Nat)
          else idx.fseeko (db.preidx + tdbIntSize + tdbMaxKeyLen + tdbPrtSize)
        (.ok .success, { db with idx := idx.fwrite true keyNextPtr }.lock .unlocked)

/-- The data-file half of `_db_fetch`: the length, that many bytes into a cleared
buffer of `TDB_MAX_RECORD_LEN`, and the string they hold. -/
def fetchData (dat : FileStream) (datoff : Int) : Except Fault CString × FileStream :=
  let (buf, dat) := (dat.fseeko (datoff + tdbIntSize)).fread tdbIntSize
  if buf.length ≠ tdbIntSize then (.error .exit, dat)
  else
    let len := (LittleEndian.toInt buf % (2 ^ 64 : Nat)).toNat
    let (data, dat) := dat.fread len
    if tdbMaxRecordLen < data.length then (.error .overrun, dat)
    else if data.length ≠ len then (.error .exit, dat)
    else if data.length = tdbMaxRecordLen ∧ (0 : UInt8) ∉ data then (.error .overrun, dat)
    else (.ok (CString.ofBytes data), dat)

/-- `_db_fetch`; `none` is the null pointer. -/
def dbFetch (db : TDB) (key : CString) : Except Fault (Option CString) × TDB :=
  if key.length ≤ 0 ∨ tdbMaxKeyLen < key.length then (.ok none, db)
  else match dbFindAndLock db key false with
    | (.error fault, db) => (.error fault, db)
    | (.ok .exist, db) =>
      match fetchData db.dat db.datoff with
      | (.error fault, dat) => (.error fault, { db with dat := dat })
      | (.ok value, dat) => (.ok (some value), { db with dat := dat }.lock .unlocked)
    | (.ok _, db) => (.ok none, db)

end CachelibArchive.Tmdb
