import CachelibArchive.Core.Run
import CachelibArchive.Tmdb.Store

/-!
# Databases reached from creation

A run is a sequence of calls on one handle at a time, closing and re-opening
included. Beside the handle a state carries what a reader of the run knows and
the program does not: which key records have been written, and where.
-/

namespace CachelibArchive.Tmdb

/-- One call of a program that uses the store. -/
inductive Op
  | store (mode : StoreMode) (k : Key) (v : Value) (pad : UInt32)
  | delete (k : Key)
  | fetch (k : Key)
  /-- Close the handle and open the same files with mode "r" or "w". -/
  | reopen (readOnly : Bool)

/-- The open handle, and the key records written since creation. -/
structure State where
  db : TDB
  written : List Entry

/-- The handle `_db_open` returns for mode "c". -/
def createdDb : TDB :=
  let fresh : FileStream := ⟨ByteFile.empty, 0, true⟩
  dbAlloc (dbCreate fresh fresh).1 (dbCreate fresh fresh).2

/-- A database just created. -/
def created : State := ⟨createdDb, []⟩

theorem dbOpen_create (disk : Disk) : dbOpen disk .create = some createdDb := rfl

/-- Every offset in both files is an `off_t`, as it is while file operations succeed. -/
def Fits (db : TDB) : Prop := db.idx.file.size < 2 ^ 63 ∧ db.dat.file.size < 2 ^ 63

instance (db : TDB) : Decidable (Fits db) := inferInstanceAs (Decidable (_ ∧ _))

instance (db : TDB) : Decidable (Writable db) :=
  decidable_of_iff (db.idx.writable = true ∧ db.dat.writable = true)
    ⟨fun h => ⟨h.1, h.2⟩, fun h => ⟨h.idx, h.dat⟩⟩

/-- The records known after a store: one more if the index file has grown. -/
def State.recorded (s : State) (k : Key) (db : TDB) : List Entry :=
  if s.db.idx.file.size < db.idx.file.size then s.written ++ [⟨s.db.idx.file.size, k⟩]
  else s.written

/-- The state a call leaves, if it returns and its file operations succeed. -/
def settle {α : Type} (written : TDB → List Entry) : Except Fault α × TDB → Option State
  | (.error _, _) => none
  | (.ok _, db) => if Fits db then some ⟨db, written db⟩ else none

/-- One call. Stores and deletions go through handles open for writing. -/
def step (s : State) : Op → Option State
  | .store mode k v pad =>
    if Writable s.db then
      settle (s.recorded k) (dbStore allAccepted s.db k.str v.str mode pad)
    else none
  | .delete k =>
    if Writable s.db then settle (fun _ => s.written) (dbDelete s.db k.str) else none
  | .fetch k => settle (fun _ => s.written) (dbFetch s.db k.str)
  | .reopen readOnly =>
    (dbOpen (dbFree s.db) (if readOnly then .read else .write)).map fun db => ⟨db, s.written⟩

/-! ## What a step can do -/

/-- A call that settled returned, and its files still fit. -/
theorem settle_eq_some {α : Type} {written : TDB → List Entry} {r : Except Fault α × TDB}
    {s : State} (h : settle written r = some s) :
    (∃ a, r = (.ok a, s.db)) ∧ Fits s.db ∧ s.written = written s.db := by
  obtain ⟨r, db⟩ := r
  cases r with
  | error fault => cases h
  | ok a =>
    simp only [settle] at h
    split at h
    · next hfit => cases h; exact ⟨⟨a, rfl⟩, hfit, rfl⟩
    · cases h

/-- A call has one result. -/
theorem result_unique {α : Type} {x : Except Fault α × TDB} {a b : α} {db db' : TDB}
    (h : x = (.ok a, db)) (h' : x = (.ok b, db')) : a = b ∧ db = db' := by
  cases h.symm.trans h'
  exact ⟨rfl, rfl⟩

/-- What a step with a store says of the two states. -/
theorem step_store {s s' : State} {mode : StoreMode} {k : Key} {v : Value} {pad : UInt32}
    (h : step s (.store mode k v pad) = some s') :
    Writable s.db ∧ (∃ r, dbStore allAccepted s.db k.str v.str mode pad = (.ok r, s'.db)) ∧
      Fits s'.db ∧ s'.written = s.recorded k s'.db := by
  obtain ⟨hw, hsettle⟩ := Option.ite_none_right_eq_some.mp h
  exact ⟨hw, settle_eq_some hsettle⟩

/-- The same of a deletion, -/
theorem step_delete {s s' : State} {k : Key} (h : step s (.delete k) = some s') :
    Writable s.db ∧ (∃ r, dbDelete s.db k.str = (.ok r, s'.db)) ∧
      Fits s'.db ∧ s'.written = s.written := by
  obtain ⟨hw, hsettle⟩ := Option.ite_none_right_eq_some.mp h
  exact ⟨hw, settle_eq_some hsettle⟩

/-- and of a fetch. -/
theorem step_fetch {s s' : State} {k : Key} (h : step s (.fetch k) = some s') :
    (∃ r, dbFetch s.db k.str = (.ok r, s'.db)) ∧ Fits s'.db ∧ s'.written = s.written :=
  settle_eq_some h

/-- Closing and opening again keeps both files and sets both open modes. -/
theorem step_reopen (s : State) (readOnly : Bool) :
    ∃ s', step s (.reopen readOnly) = some s' ∧ s'.db.idx.file = s.db.idx.file ∧
      s'.db.dat.file = s.db.dat.file ∧ s'.written = s.written ∧
      s'.db.idx.writable = !readOnly ∧ s'.db.dat.writable = !readOnly := by
  cases readOnly <;> exact ⟨_, rfl, rfl, rfl, rfl, rfl, rfl⟩

/-- The database after one insert of the key 1. -/
def oneStored : State :=
  (Run.exec step created [.store .insert keyOne valueX 0]).getD created

theorem exec_oneStored :
    Run.exec step created [.store .insert keyOne valueX 0] = some oneStored := by
  obtain ⟨s, hs⟩ := Option.isSome_iff_exists.mp
    (by decide +kernel : (Run.exec step created [.store .insert keyOne valueX 0]).isSome)
  rw [oneStored, hs, Option.getD_some]

end CachelibArchive.Tmdb
