import CachelibArchive.Core.ByteFile
import CachelibArchive.Core.CString
import CachelibArchive.Core.LittleEndian

/-!
# The tmdb handle and its bucket search

The index file is a 256-byte header, a table of 655360 eight-byte bucket
pointers and then key records of 88 bytes (`sizeof(tdb_key_record_t)` on
x86-64: flag at 0, key at 4, four bytes of padding at 68, `data_ptr` at 72,
`next_ptr` at 80). The data file is a 256-byte header and then records of
flag, length, data and next pointer. Nothing is assumed about either file here:
the search reads whatever bytes it finds, and says when it would leave the
record, the file or the loop.
-/

namespace CachelibArchive.Tmdb

/-! ## Constants of `tmdb.h` -/

@[simp] def tdbIntSize : Nat := 4
@[simp] def tdbPrtSize : Nat := 4
@[simp] def tdbOffSize : Nat := 8
@[simp] def tdbMaxHashBucket : Nat := 655360
@[simp] def tdbMaxKeyLen : Nat := 64
@[simp] def tdbMaxRecordLen : Nat := 4194304
@[simp] def tdbIndexHeaderLen : Nat := 256
@[simp] def tdbDataHeaderLen : Nat := 256

/-- `sizeof(struct tdb_key_record_t)`. -/
@[simp] def keyRecordSize : Nat := 88

/-- `sizeof(struct tdb_data_record_t)`: the struct in memory, with a pointer for the data. -/
@[simp] def dataRecordSize : Nat := 24

/-- Return values of the store operations. -/
inductive Status
  | success
  | ok
  | error
  deriving DecidableEq, Repr

/-- Return values of the bucket search. -/
inductive KeyStatus
  | first
  | notExist
  | exist
  | error
  deriving DecidableEq, Repr

/-- The `mode` argument of a store; `other` is any value the parameter check rejects. -/
inductive StoreMode
  | insert
  | replace
  | store
  | other
  deriving DecidableEq, Repr

/-- Ways a call does not return: the process exits, memory outside an object is
touched, or the search loop never ends. -/
inductive Fault
  | exit
  | overrun
  | diverge
  deriving DecidableEq, Repr

/-- The advisory lock a handle holds on one of its files. -/
inductive FileLock
  | unlocked
  | shared
  | exclusive
  deriving DecidableEq, Repr

/-- Whether `flock` grants the second lock while another descriptor holds the first. -/
def FileLock.admits : FileLock → FileLock → Bool
  | .unlocked, _ | _, .unlocked | .shared, .shared => true
  | _, _ => false

/-- The two files on disk, either of which may be missing. -/
structure Disk where
  idx : Option ByteFile
  dat : Option ByteFile

/-- The handle: both streams, the search results it carries between functions
and the lock held on each descriptor. `nhash` is always `TDB_MAX_HASH_BUCKET`. -/
structure TDB where
  idx : FileStream
  dat : FileStream
  hash : Nat
  idxoff : Int
  preidx : Int
  keyPtrPos : Int
  datoff : Int
  idxLock : FileLock
  datLock : FileLock

/-- The mode string of `_db_open`: "c", "w" or "r". -/
inductive OpenMode
  | create
  | write
  | read
  deriving DecidableEq, Repr

/-! ## Opening -/

/-- `_db_create` on two freshly truncated streams. -/
def dbCreate (idx dat : FileStream) : FileStream × FileStream :=
  let zero := LittleEndian.ofInt tdbIntSize 0
  let ozero := LittleEndian.ofInt tdbOffSize 0
  let idx := (idx.fseeko 0).fwrite true zero
  let idx := (idx.fseeko
    (tdbIndexHeaderLen + tdbMaxHashBucket * tdbOffSize - tdbOffSize : Nat)).fwrite true ozero
  let dat := dat.fseeko 0
  let dat := (dat.fseeko (tdbDataHeaderLen - tdbIntSize : Nat)).fwrite true zero
  (idx, dat)

/-- `_db_alloc`: every field of the handle zero. -/
def dbAlloc (idx dat : FileStream) : TDB :=
  ⟨idx, dat, 0, 0, 0, 0, 0, .unlocked, .unlocked⟩

/-- `_db_open`. A missing index file is created in every mode, truncating the data file. -/
def dbOpen (disk : Disk) (mode : OpenMode) : Option TDB :=
  let fresh : FileStream := ⟨ByteFile.empty, 0, true⟩
  let create := dbCreate fresh fresh
  match mode, disk.idx, disk.dat with
  | .create, _, _ | _, none, _ => some (dbAlloc create.1 create.2)
  | _, some _, none => none
  | .read, some idx, some dat => some (dbAlloc ⟨idx, 0, false⟩ ⟨dat, 0, false⟩)
  | .write, some idx, some dat => some (dbAlloc ⟨idx, 0, true⟩ ⟨dat, 0, true⟩)

/-- What `_db_free` leaves on disk: every completed store has flushed both streams, so the files
are as written. -/
def dbFree (db : TDB) : Disk := ⟨some db.idx.file, some db.dat.file⟩

/-! ## Hashing -/

/-- A plain `char` widened to `unsigned long`: bytes from 128 on are negative. -/
def charValue (c : UInt8) : Nat := if c.toNat < 128 then c.toNat else c.toNat + (2 ^ 64 - 256)

/-- `_db_hash`, the BKDR hash in 64-bit arithmetic. -/
@[irreducible] def dbHash (str : CString) : Nat :=
  let hash := str.bytes.foldl (fun hash c => (hash * 131 + charValue c) % 2 ^ 64) 0
  (hash % 2 ^ 31) % tdbMaxHashBucket

theorem dbHash_lt (str : CString) : dbHash str < tdbMaxHashBucket := by
  unfold dbHash
  exact Nat.mod_lt _ (by decide)

/-! ## The search -/

/-- `isspace` in the C locale. -/
def isspace (c : UInt8) : Bool := c = 32 || (9 ≤ c && c ≤ 13)

/-- `rtrim` on a string whose record bytes in front of it are `before`. The scan
for the last character runs backwards without a bound: on a blank string it
enters `before`, and leaves the record when that is blank too. -/
def rtrim (before s : List UInt8) : Option (List UInt8) :=
  if s.rdropWhile isspace ≠ [] then some (s.rdropWhile isspace)
  else if before.rdropWhile isspace = [] then none
  else if before.rdropWhile isspace = before then some []
  else some s

/-- `rtrim(key_record->key)` on the 88 bytes of a record, if the scan for the
terminator and the trimming both stay inside them. -/
def recordKey (record : List UInt8) : Option (List UInt8) :=
  if (0 : UInt8) ∈ record.drop tdbIntSize then
    rtrim (record.take tdbIntSize) ((record.drop tdbIntSize).takeWhile (· ≠ 0))
  else none

/-- `key_record->data_ptr`. -/
def recordDataPtr (record : List UInt8) : Int :=
  LittleEndian.toInt ((record.drop 72).take tdbOffSize)

/-- `key_record->next_ptr`. -/
def recordNextPtr (record : List UInt8) : Int :=
  LittleEndian.toInt ((record.drop 80).take tdbOffSize)

/-- What the loop of `_db_find_and_lock` leaves behind when it breaks. -/
structure Found where
  find : Bool
  keyPtrPos : Int
  dataPtr : Int
  idx : FileStream

/-- The `while(1)` loop of `_db_find_and_lock`. Every pass that goes on reads a
whole record and the next pass depends only on where it was read, so a search
that takes more passes than the file has offsets repeats one and never ends. -/
def findLoop (key : CString) : Nat → FileStream → Int → Except Fault Found
  | 0, _, _ => .error .diverge
  | fuel + 1, idx, keyPtrPos =>
    let (record, idx) := (idx.fseeko keyPtrPos).fread keyRecordSize
    if record.length ≠ keyRecordSize then .error .exit
    else match recordKey record with
      | none => .error .overrun
      | some k =>
        if k = key.bytes then .ok ⟨true, keyPtrPos, recordDataPtr record, idx⟩
        else if recordNextPtr record = 0 then .ok ⟨false, keyPtrPos, recordDataPtr record, idx⟩
        else findLoop key fuel idx (recordNextPtr record)

/-- `flock` on both descriptors. -/
def TDB.lock (db : TDB) (l : FileLock) : TDB := { db with idxLock := l, datLock := l }

/-- `_db_find_and_lock`. -/
def dbFindAndLock (db : TDB) (key : CString) (isWrite : Bool) :
    Except Fault KeyStatus × TDB :=
  let db := { db with hash := dbHash key }
  let db := db.lock (if isWrite then .exclusive else .shared)
  let keyPos := tdbIndexHeaderLen + db.hash * tdbOffSize
  let (buf, idx) := (db.idx.fseeko keyPos).fread tdbOffSize
  if buf.length ≠ tdbOffSize then (.ok .error, { db with idx := idx })
  else
    let keyPtrPos := LittleEndian.toInt buf
    let db := { db with idx := idx, keyPtrPos := keyPtrPos }
    if keyPtrPos = 0 then (.ok .first, { db with idxoff := 0 })
    else match findLoop key (idx.file.size + 1) idx keyPtrPos with
      | .error fault => (.error fault, db)
      | .ok found =>
        let db := { db with idx := found.idx, preidx := found.idx.pos, idxoff := found.keyPtrPos }
        if found.find then (.ok .exist, { db with datoff := found.dataPtr })
        else (.ok .notExist, db)

end CachelibArchive.Tmdb
