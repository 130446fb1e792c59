import CachelibArchive.Tmdb.Store

/-!
# A program and the locks it leaves

`_db_free` closes the stream of the index file only. The stream of the data file stays open as
long as the program runs, with whatever lock the handle still held: a fetch of an absent key
returns without unlocking. The next handle has a descriptor of its own, so a store through it
waits for a lock that nobody gives back.
-/

namespace CachelibArchive.Tmdb

/-! ## Which lock a call leaves -/

/-- The search takes its lock on the data file, however it ends. -/
theorem dbFindAndLock_datLock (db : TDB) (key : CString) (isWrite : Bool) :
    (dbFindAndLock db key isWrite).2.datLock = searchLock isWrite := by
  by_cases hle : bucketOff (dbHash key) + 8 ≤ db.idx.file.size
  · rw [dbFindAndLock_eq hle]
    dsimp only
    split_ifs
    · rfl
    · cases findLoop key ((searchStart db key isWrite).idx.file.size + 1)
        (searchStart db key isWrite).idx (searchStart db key isWrite).keyPtrPos with
      | error fault => rfl
      | ok found =>
        dsimp only [searchEnd]
        split_ifs <;> rfl
  · obtain ⟨db', hfind, hs⟩ := dbFindAndLock_error hle isWrite
    rw [hfind]
    exact hs.datLock

/-- A store that succeeds, or finds what it need not do, gives its lock back. -/
theorem dbStore_datLock {accepts : WriteSite → Bool} {db db' : TDB} {key value : CString}
    {mode : StoreMode} {pad : UInt32} {r : Status}
    (h : dbStore accepts db key value mode pad = (.ok r, db')) (hr : r ≠ .error) :
    db'.datLock = .unlocked := by
  unfold dbStore at h
  split_ifs at h with hm hk hv
  · exact absurd (Except.ok.inj (Prod.mk.inj h).1).symm hr
  · exact absurd (Except.ok.inj (Prod.mk.inj h).1).symm hr
  · exact absurd (Except.ok.inj (Prod.mk.inj h).1).symm hr
  · split at h
    · cases h
    · exact absurd (Except.ok.inj (Prod.mk.inj h).1).symm hr
    · dsimp only at h
      split_ifs at h <;>
        · cases h
          rfl

/-- The fetch returns a value, and no null pointer. -/
def returnsValue : Except Fault (Option CString) → Bool
  | .ok (some _) => true
  | _ => false

/-- A fetch of a valid key that returns no value keeps LOCK_SH, and one that returns a value gives
it back. -/
theorem dbFetch_datLock (db : TDB) {key : CString} (hkey : KeyLength key) :
    (dbFetch db key).2.datLock = if returnsValue (dbFetch db key).1 then .unlocked else .shared := by
  have hlock : (dbFindAndLock db key false).2.datLock = .shared :=
    dbFindAndLock_datLock db key false
  rw [dbFetch, if_neg hkey.ok]
  generalize dbFindAndLock db key false = found at hlock ⊢
  obtain ⟨ret, db'⟩ := found
  cases ret with
  | error fault => exact hlock
  | ok ret =>
    cases ret with
    | first | notExist | error => exact hlock
    | exist =>
      rcases hdata : fetchData db'.dat db'.datoff with ⟨fault | value, dat⟩
      · simp only [hdata]
        exact hlock
      · simp only [hdata]
        rfl

/-! ## A program with its handle -/

/-- The handle that is open, and the locks of the data streams that closed handles have left
open. -/
structure Process where
  db : TDB
  left : List FileLock

/-- A program that has created the database. -/
def Process.created (db : TDB) : Process := ⟨db, []⟩

/-- What a call returns. -/
inductive Reply
  | status (status : Status)
  | value (value : Option CString)
  | opened
  deriving DecidableEq

/-- Ways a call does not return: below the store, or waiting for a lock of the program's own. -/
inductive Halt
  | fault (fault : Fault)
  | waits
  deriving DecidableEq

/-- What `_db_store` accepts. -/
def Accepted (key value : CString) : Prop := KeyLength key ∧ value.length ≤ tdbMaxRecordLen

instance (key value : CString) : Decidable (Accepted key value) :=
  inferInstanceAs (Decidable (_ ∧ _))

namespace Process

/-- The request for this lock on the data file is never granted. -/
def Waits (p : Process) (l : FileLock) : Prop := ∃ x ∈ p.left, x.admits l = false

instance (p : Process) (l : FileLock) : Decidable (p.Waits l) :=
  inferInstanceAs (Decidable (∃ x ∈ p.left, _))

/-- A call that asks for a lock, if its arguments pass the checks, before it does anything
else. -/
def call {α : Type} (p : Process) (request : Option FileLock)
    (run : TDB → Except Fault α × TDB) : Except Halt α × Process :=
  if ∃ l ∈ request, p.Waits l then (.error .waits, p)
  else ((run p.db).1.mapError .fault, { p with db := (run p.db).2 })

/-- `_db_store` in mode TDB_INSERT. Without a valid key and value it asks for no lock. -/
def store (p : Process) (key value : CString) (pad : UInt32) : Except Halt Status × Process :=
  p.call (if Accepted key value then some .exclusive else none) fun db =>
    dbStore allAccepted db key value .insert pad

/-- `_db_fetch`. -/
def fetch (p : Process) (key : CString) : Except Halt (Option CString) × Process :=
  p.call (if KeyLength key then some .shared else none) fun db => dbFetch db key

/-- `_db_free`, and the next `_db_open`. -/
def reopen (p : Process) (mode : OpenMode) : Option Process :=
  (dbOpen (dbFree p.db) mode).map fun db => ⟨db, p.left ++ [p.db.datLock]⟩

/-- A store whose arguments are turned away asks for no lock. -/
theorem store_refused (p : Process) {key value : CString} (ha : ¬Accepted key value)
    (pad : UInt32) : p.store key value pad = (.ok .error, p) := by
  simp [store, call, if_neg ha, dbStore_refused allAccepted p.db ha .insert pad, Except.mapError]

end Process

/-! ## What the calls say about the locks -/

/-- Whether the handle keeps LOCK_SH, and whether a closed handle has left it. -/
structure Marks where
  held : Bool
  left : Bool
  deriving DecidableEq

namespace Marks

/-- No lock anywhere. -/
def none : Marks := ⟨false, false⟩

/-- After a store. -/
def stored (m : Marks) : Marks := { m with held := false }

/-- After a fetch, which has returned a value or not. -/
def fetched (m : Marks) (value : Bool) : Marks := { m with held := !value }

/-- After the next opening. -/
def reopened (m : Marks) : Marks := ⟨false, m.left || m.held⟩

end Marks

/-- The locks of a program are those the marks tell. -/
structure Process.Marked (p : Process) (m : Marks) : Prop where
  held : p.db.datLock = if m.held then .shared else .unlocked
  weak : ∀ x ∈ p.left, x ≠ .exclusive
  left : .shared ∈ p.left ↔ m.left = true

namespace Process.Marked

variable {p : Process} {m : Marks}

theorem created {db : TDB} (h : db.datLock = .unlocked) : (Process.created db).Marked .none :=
  ⟨h, fun _ hx => (nomatch hx), by simp [Process.created, Marks.none]⟩

/-- A request for LOCK_EX waits exactly for LOCK_SH of a closed handle. -/
theorem waits_exclusive (h : p.Marked m) : p.Waits .exclusive ↔ m.left = true := by
  rw [← h.left]
  constructor
  · rintro ⟨x, hx, hadmits⟩
    cases x with
    | unlocked => cases hadmits
    | shared => exact hx
    | exclusive => exact absurd rfl (h.weak _ hx)
  · exact fun hx => ⟨_, hx, rfl⟩

/-- A request for LOCK_SH is granted. -/
theorem not_waits_shared (h : p.Marked m) : ¬p.Waits .shared := by
  rintro ⟨x, hx, hadmits⟩
  cases x with
  | unlocked | shared => cases hadmits
  | exclusive => exact absurd rfl (h.weak _ hx)

/-- After a store that has given its lock back. -/
theorem stored (h : p.Marked m) {db : TDB} (hdb : db.datLock = .unlocked) :
    Process.Marked { p with db } m.stored :=
  ⟨hdb, h.weak, h.left⟩

/-- After a fetch. -/
theorem fetched (h : p.Marked m) {db : TDB} {value : Bool}
    (hdb : db.datLock = if value then .unlocked else .shared) :
    Process.Marked { p with db } (m.fetched value) := by
  refine ⟨?_, h.weak, h.left⟩
  rw [hdb]
  cases value <;> rfl

/-- A store that finds no lock is the store on the files. -/
theorem store_eq (h : p.Marked m) (hleft : m.left = false) {key value : CString} {pad : UInt32}
    {r : Status} {db : TDB} (hst : dbStore allAccepted p.db key value .insert pad = (.ok r, db)) :
    p.store key value pad = (.ok r, { p with db }) := by
  have hfree : ¬p.Waits .exclusive := by
    rw [h.waits_exclusive, hleft]
    exact Bool.false_ne_true
  have hgranted : ¬∃ l ∈ if Accepted key value then some FileLock.exclusive else none,
      p.Waits l := by
    rintro ⟨l, hl, hwaits⟩
    split_ifs at hl <;> cases hl
    exact hfree hwaits
  rw [Process.store, Process.call, if_neg hgranted, hst]
  rfl

/-- A store that meets LOCK_SH of a closed handle waits. -/
theorem store_waits (h : p.Marked m) (hleft : m.left = true) {key value : CString}
    (ha : Accepted key value) (pad : UInt32) : p.store key value pad = (.error .waits, p) := by
  rw [Process.store, if_pos ha, Process.call,
    if_pos ⟨_, rfl, h.waits_exclusive.mpr hleft⟩]

/-- A fetch is the fetch on the files. -/
theorem fetch_eq (h : p.Marked m) (key : CString) : p.fetch key =
    ((dbFetch p.db key).1.mapError .fault, { p with db := (dbFetch p.db key).2 }) := by
  have hgranted : ¬∃ l ∈ if KeyLength key then some FileLock.shared else none, p.Waits l := by
    rintro ⟨l, hl, hwaits⟩
    split_ifs at hl <;> cases hl
    exact h.not_waits_shared hwaits
  rw [Process.fetch, Process.call, if_neg hgranted]

/-- After the handle has been closed and the next one opened. -/
theorem reopened (h : p.Marked m) {db : TDB} (hdb : db.datLock = .unlocked) :
    Process.Marked ⟨db, p.left ++ [p.db.datLock]⟩ m.reopened := by
  obtain ⟨held, left⟩ := m
  have hheld := h.held
  have hleft := h.left
  refine ⟨hdb, fun x hx => ?_, ?_⟩
  · rcases List.mem_append.mp hx with hx | hx
    · exact h.weak x hx
    · obtain rfl := List.mem_singleton.mp hx
      rw [hheld]
      cases held <;> nofun
  · rw [List.mem_append, hleft, List.mem_singleton, hheld, Marks.reopened]
    cases held <;> simp

end Process.Marked

end CachelibArchive.Tmdb
