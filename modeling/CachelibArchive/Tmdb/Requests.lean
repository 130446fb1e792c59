import CachelibArchive.Tmdb.Slots

/-!
# Requests with any strings

The requests of a program on one handle at a time, with strings nobody has
checked, and the records they leave. Stores add records where the search does
not meet the key; what the search meets is a matter of the strings alone.
-/

namespace CachelibArchive.Tmdb

/-- The open handle, and the records written since creation. -/
structure Records where
  db : TDB
  slots : List Slot

/-- A database just created. -/
def noRecords : Records := ⟨createdDb, []⟩

/-- Both files are as stores leave them, and no offset is out of range. -/
structure Intact (s : Records) : Prop where
  slotted : Slotted s.db.idx.file s.slots
  dat : tdbDataHeaderLen ≤ s.db.dat.file.size
  fits : Fits s.db

theorem intact_noRecords : Intact noRecords := by
  refine ⟨⟨⟨le_rfl, ?_, ?_, ?_⟩, .nil, ?_, fun h _ => bucketPtr_created h⟩, le_rfl,
    sound_created.fits⟩ <;> simp [noRecords]

/-- Calls that change no file keep everything. -/
theorem Intact.congr {s : Records} (hs : Intact s) {db : TDB}
    (hidx : db.idx.file = s.db.idx.file) (hdat : db.dat.file = s.db.dat.file) :
    Intact ⟨db, s.slots⟩ := by
  refine ⟨?_, ?_, ?_⟩
  · rw [hidx]
    exact hs.slotted
  · rw [hdat]
    exact hs.dat
  · rw [Fits, hidx, hdat]
    exact hs.fits

theorem Intact.table {s : Records} (hs : Intact s) : tableEnd ≤ s.db.idx.file.size :=
  hs.slotted.spread.table

/-- What a search of a key visits. -/
theorem Intact.trail {s : Records} (hs : Intact s) (k : CString) :
    Trail s.db.idx.file (bucketPtr s.db.idx.file (dbHash k)) (slotStops s.slots (dbHash k)) :=
  hs.slotted.trail (dbHash_lt k)

theorem Intact.fits_two_mul {s : Records} (hs : Intact s) :
    2 * s.db.idx.file.size < 2 ^ 64 ∧ 2 * s.db.dat.file.size < 2 ^ 64 := by
  obtain ⟨hi, hd⟩ := hs.fits
  omega

/-- The search for the string meets it: a record of its bucket compares equal. -/
def Met (xs : List Slot) (k : CString) : Prop :=
  ∃ x ∈ xs, dbHash x.key = dbHash k ∧ trimmed x.key = k.bytes

instance (xs : List Slot) (k : CString) : Decidable (Met xs k) :=
  inferInstanceAs (Decidable (∃ x ∈ xs, _))

/-- A key met is the name of a stop. -/
theorem find?_of_met {xs : List Slot} {k : CString} (h : Met xs k) :
    ∃ x ∈ xs, (slotStops xs (dbHash k)).find? (fun s => s.name = k.bytes) = some x.stop := by
  obtain ⟨x, hx, hash, hname⟩ := h
  cases hf : (slotStops xs (dbHash k)).find? (fun s => s.name = k.bytes) with
  | none =>
    have hne := List.find?_eq_none.mp hf x.stop
      (List.mem_map_of_mem (mem_slotsIn.mpr ⟨hx, hash⟩))
    simp [Slot.stop, hname] at hne
  | some s =>
    obtain ⟨y, hy, rfl⟩ := List.mem_map.mp (List.mem_of_find?_eq_some hf)
    exact ⟨y, (mem_slotsIn.mp hy).1, rfl⟩

/-- A key that is not met is the name of none. -/
theorem name_ne_of_not_met {xs : List Slot} {k : CString} (h : ¬Met xs k) :
    ∀ s ∈ slotStops xs (dbHash k), s.name ≠ k.bytes := by
  intro s hs hname
  obtain ⟨x, hx, rfl⟩ := List.mem_map.mp hs
  obtain ⟨hx, hash⟩ := mem_slotsIn.mp hx
  exact h ⟨x, hx, hash, hname⟩

/-- The search reports a string exactly when it meets it. -/
theorem Intact.search_exist_iff {s : Records} (hs : Intact s) (k : CString) (isWrite : Bool) :
    (dbFindAndLock s.db k isWrite).1 = .ok .exist ↔ Met s.slots k := by
  by_cases h : Met s.slots k
  · obtain ⟨x, _, hf⟩ := find?_of_met h
    obtain ⟨db, hsearch, _⟩ := dbFindAndLock_exist hs.table isWrite (hs.trail k) hf
    exact iff_of_true (by rw [hsearch]) h
  · obtain ⟨ret, db, hsearch, _, hret⟩ := dbFindAndLock_absent hs.table isWrite (hs.trail k)
      (name_ne_of_not_met h)
    refine iff_of_false ?_ h
    rw [hsearch]
    rcases hret with ⟨rfl, -⟩ | ⟨rfl, -⟩ <;> simp

/-! ## Stores -/

section store

variable {s : Records} (hs : Intact s) (hw : Writable s.db) {key value : CString}
  (hk : KeyLength key) (hv : value.length ≤ tdbMaxRecordLen) (pad : UInt32)

include hs hk hv

/-- Inserting a string the search meets. -/
theorem Intact.insert_met (h : Met s.slots key) :
    ∃ db, dbStore allAccepted s.db key value .insert pad = (.ok .ok, db) ∧ SameFiles s.db db := by
  obtain ⟨x, _, hf⟩ := find?_of_met h
  exact dbStore_present_insert hs.table hk hv pad (hs.trail key) allAccepted hf

include hw

/-- Storing a string the search does not meet. -/
theorem Intact.store_unmet (h : ¬Met s.slots key) {mode : StoreMode}
    (hmode : mode = .insert ∨ mode = .store) :
    ∃ db, dbStore allAccepted s.db key value mode pad = (.ok .success, db) ∧
      Stored s.db db (appendLinked s.db.idx.file (keyRecordBytes key pad s.db.dat.file.size 0)
        (linkTarget (dbHash key) (slotStops s.slots (dbHash key)))) value :=
  dbStore_absent hs.table hk hv pad (hs.trail key) hw hs.dat (name_ne_of_not_met h) hmode

end store

/-- Everything a store can do, by its mode and by what the search meets. -/
theorem Intact.store_cases {s : Records} (hs : Intact s) (hw : Writable s.db) {key value : CString}
    {mode : StoreMode} {pad : UInt32} {r : Status} {db : TDB}
    (h : dbStore allAccepted s.db key value mode pad = (.ok r, db)) :
    SameFiles s.db db ∨ KeyLength key ∧ value.length ≤ tdbMaxRecordLen ∧
      ((mode = .insert ∨ mode = .store) ∧ ¬Met s.slots key ∧
          Stored s.db db (appendLinked s.db.idx.file
            (keyRecordBytes key pad s.db.dat.file.size 0)
            (linkTarget (dbHash key) (slotStops s.slots (dbHash key)))) value ∨
        (mode = .replace ∨ mode = .store) ∧ Met s.slots key ∧ ∃ x ∈ s.slots,
          Stored s.db db (overwriteData s.db.idx.file x.off s.db.dat.file.size) value) := by
  by_cases hlen : KeyLength key ∧ value.length ≤ tdbMaxRecordLen
  · obtain ⟨hk, hv⟩ := hlen
    have hother (hmode : mode = .other) : SameFiles s.db db := by
      subst hmode
      obtain ⟨-, rfl⟩ := result_unique (dbStore_other allAccepted s.db key value pad) h
      exact ⟨rfl, rfl, rfl, rfl⟩
    by_cases hmet : Met s.slots key
    · obtain ⟨x, hx, hf⟩ := find?_of_met hmet
      by_cases hmode : mode = .replace ∨ mode = .store
      · obtain ⟨db', hst, hstored⟩ := dbStore_present_replace hs.table hk hv pad (hs.trail key) hw
          hs.dat hf hmode
        obtain ⟨-, rfl⟩ := result_unique hst h
        exact .inr ⟨hk, hv, .inr ⟨hmode, hmet, x, hx, hstored⟩⟩
      · cases mode with
        | replace => simp at hmode
        | store => simp at hmode
        | insert =>
          obtain ⟨db', hst, hsame⟩ := hs.insert_met hk hv pad hmet
          obtain ⟨-, rfl⟩ := result_unique hst h
          exact .inl hsame
        | other => exact .inl (hother rfl)
    · by_cases hmode : mode = .insert ∨ mode = .store
      · obtain ⟨db', hst, hstored⟩ := hs.store_unmet hw hk hv pad hmet hmode
        obtain ⟨-, rfl⟩ := result_unique hst h
        exact .inr ⟨hk, hv, .inl ⟨hmode, hmet, hstored⟩⟩
      · cases mode with
        | insert => simp at hmode
        | store => simp at hmode
        | replace =>
          obtain ⟨db', hst, hsame⟩ := dbStore_absent_replace hs.table hk hv pad (hs.trail key)
            allAccepted (name_ne_of_not_met hmet)
          obtain ⟨-, rfl⟩ := result_unique hst h
          exact .inl hsame
        | other => exact .inl (hother rfl)
  · obtain ⟨-, rfl⟩ := result_unique (dbStore_refused allAccepted s.db hlen mode pad) h
    exact .inl ⟨rfl, rfl, rfl, rfl⟩

/-- A fetch changes no file. -/
theorem Intact.fetch_sameFiles {s : Records} (hs : Intact s) (key : CString) :
    SameFiles s.db (dbFetch s.db key).2 := by
  by_cases hk : KeyLength key
  · exact dbFetch_sameFiles hs.table hk (hs.trail key)
  · rw [dbFetch_refused s.db hk]
    exact ⟨rfl, rfl, rfl, rfl⟩

/-- The records after a store. -/
def Records.grown (s : Records) (key : CString) (db : TDB) : List Slot :=
  if s.db.idx.file.size < db.idx.file.size then s.slots ++ [⟨s.db.idx.file.size, key⟩]
  else s.slots

/-- No record without growth. -/
theorem Records.grown_of_size_eq {s : Records} {key : CString} {db : TDB}
    (h : db.idx.file.size = s.db.idx.file.size) : s.grown key db = s.slots :=
  if_neg (by omega)

section stored

variable {s : Records} (hs : Intact s) {key value : CString} (hk : KeyLength key) {pad : UInt32}
  {db : TDB} (hst : Stored s.db db
    (appendLinked s.db.idx.file (keyRecordBytes key pad s.db.dat.file.size 0)
      (linkTarget (dbHash key) (slotStops s.slots (dbHash key)))) value)

include hs hk hst

/-- A record stored is the last one. -/
theorem Intact.grown_stored : s.grown key db = s.slots ++ [⟨s.db.idx.file.size, key⟩] := by
  have hle := (site_slotStops s.slots (dbHash_lt key)).le_size hs.slotted.spread
  refine if_pos ?_
  rw [hst.idx, size_appendLinked (length_keyRecordBytes hk.le ..) hle]
  exact Nat.lt_add_of_pos_right (by decide)

/-- A store of a string that was not there adds a record. -/
theorem Intact.append (hfit : Fits db) : Intact ⟨db, s.grown key db⟩ := by
  rw [hs.grown_stored hk hst]
  refine ⟨?_, ?_, hfit⟩
  · dsimp only
    rw [hst.idx]
    exact hs.slotted.append hk.le hs.fits_two_mul.1 pad _
  · dsimp only
    rw [hst.dat.size]
    exact Nat.le_add_right_of_le (Nat.le_add_right_of_le hs.dat)

/-- Records that lead to values with a property still do after a value with it is stored. -/
theorem Intact.data_append {P : CString → Prop}
    (hdata : ∀ x ∈ s.slots, ∃ (d : Nat) (v : CString), dataPtr s.db.idx.file x.off = d ∧
      DataAt s.db.dat.file d v ∧ P v) (hP : P value) :
    ∀ x ∈ s.grown key db, ∃ (d : Nat) (v : CString), dataPtr db.idx.file x.off = d ∧
      DataAt db.dat.file d v ∧ P v := by
  have hsite := site_slotStops s.slots (dbHash_lt key)
  rw [hs.grown_stored hk hst, hst.idx]
  intro x hx
  rcases List.mem_append.mp hx with hx | hx
  · obtain ⟨d, v, hd, hat, hv⟩ := hdata x hx
    refine ⟨d, v, ?_, hat.torn hst.dat.torn, hv⟩
    rw [hs.slotted.spread.dataPtr_appendLinked _ hsite (List.mem_map_of_mem hx), hd]
  · obtain rfl := List.mem_singleton.mp hx
    exact ⟨_, value, dataPtr_appendLinked_new (hsite.le_size hs.slotted.spread) hk.le pad
      hs.fits_two_mul.2, hst.dat.record, hP⟩

end stored

/-! ## Requests -/

/-- What a program asks of the store. -/
inductive Request
  | store (mode : StoreMode) (key value : CString) (pad : UInt32)
  | delete (key : CString)
  | fetch (key : CString)
  /-- Close the handle and open the same files with mode "r" or "w". -/
  | reopen (readOnly : Bool)

/-- The handle after an operation that returns, its file operations succeeding. -/
def finished {α : Type} : Except Fault α × TDB → Option TDB
  | (.error _, _) => none
  | (.ok _, db) => if Fits db then some db else none

/-- One request. Stores and deletions go through handles open for writing. -/
def serve (s : Records) : Request → Option Records
  | .store mode key value pad =>
    if Writable s.db then
      (finished (dbStore allAccepted s.db key value mode pad)).map fun db => ⟨db, s.grown key db⟩
    else none
  | .delete key =>
    if Writable s.db then (finished (dbDelete s.db key)).map fun db => ⟨db, s.slots⟩ else none
  | .fetch key => (finished (dbFetch s.db key)).map fun db => ⟨db, s.slots⟩
  | .reopen readOnly =>
    (dbOpen (dbFree s.db) (if readOnly then .read else .write)).map fun db => ⟨db, s.slots⟩

/-- A call that finished returned, and its files still fit. -/
theorem finished_eq_some {α : Type} {r : Except Fault α × TDB} {db : TDB}
    (h : finished r = some db) : (∃ a, r = (.ok a, db)) ∧ Fits db := by
  obtain ⟨r, db'⟩ := r
  cases r with
  | error fault => cases h
  | ok a =>
    simp only [finished, Option.ite_none_right_eq_some, Option.some.injEq] at h
    obtain ⟨hfit, rfl⟩ := h
    exact ⟨⟨a, rfl⟩, hfit⟩

/-- What a store served says of the two states. -/
theorem serve_store {s t : Records} {mode : StoreMode} {key value : CString} {pad : UInt32}
    (h : serve s (.store mode key value pad) = some t) :
    Writable s.db ∧ (∃ r, dbStore allAccepted s.db key value mode pad = (.ok r, t.db)) ∧
      Fits t.db ∧ t.slots = s.grown key t.db := by
  simp only [serve, Option.ite_none_right_eq_some, Option.map_eq_some_iff] at h
  obtain ⟨hw, db, hdb, rfl⟩ := h
  obtain ⟨hr, hfit⟩ := finished_eq_some hdb
  exact ⟨hw, hr, hfit, rfl⟩

/-- The same of a deletion, -/
theorem serve_delete {s t : Records} {key : CString} (h : serve s (.delete key) = some t) :
    Writable s.db ∧ (∃ r, dbDelete s.db key = (.ok r, t.db)) ∧ Fits t.db ∧ t.slots = s.slots := by
  simp only [serve, Option.ite_none_right_eq_some, Option.map_eq_some_iff] at h
  obtain ⟨hw, db, hdb, rfl⟩ := h
  obtain ⟨hr, hfit⟩ := finished_eq_some hdb
  exact ⟨hw, hr, hfit, rfl⟩

/-- and of a fetch. -/
theorem serve_fetch {s t : Records} {key : CString} (h : serve s (.fetch key) = some t) :
    (∃ r, dbFetch s.db key = (.ok r, t.db)) ∧ Fits t.db ∧ t.slots = s.slots := by
  simp only [serve, Option.map_eq_some_iff] at h
  obtain ⟨db, hdb, rfl⟩ := h
  obtain ⟨hr, hfit⟩ := finished_eq_some hdb
  exact ⟨hr, hfit, rfl⟩

/-- Closing and opening again keeps both files and sets both open modes. -/
theorem serve_reopen {s t : Records} {readOnly : Bool} (h : serve s (.reopen readOnly) = some t) :
    t.db.idx.file = s.db.idx.file ∧ t.db.dat.file = s.db.dat.file ∧ t.slots = s.slots ∧
      t.db.idx.writable = !readOnly ∧ t.db.dat.writable = !readOnly := by
  cases readOnly <;> cases h <;> exact ⟨rfl, rfl, rfl, rfl, rfl⟩

end CachelibArchive.Tmdb
