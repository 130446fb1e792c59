import CachelibArchive.Tmdb.Database

/-!
# What every call keeps

A database is sound when its index is well chained over the records written so
far. Each call is described here once, through the chain of the bucket it
searches; every property of runs is an induction over these cases.
-/

namespace CachelibArchive.Tmdb

/-- A well-chained index over the written records, a data file with its header,
and no offset out of range. -/
structure Sound (s : State) : Prop where
  wellChained : WellChained s.db.idx.file s.written
  dat : tdbDataHeaderLen ≤ s.db.dat.file.size
  fits : Fits s.db

/-- The records a search of bucket `h` visits. -/
structure BucketChain (s : State) (h : Nat) (L : List Entry) : Prop where
  chain : Chained s.db.idx.file (bucketPtr s.db.idx.file h) L
  sub : ∀ e ∈ L, e ∈ s.written ∧ dbHash e.key.str = h

/-- Every key has the chain of its bucket. -/
theorem Sound.exists_bucketChain {s : State} (hs : Sound s) (k : CString) :
    ∃ L, BucketChain s (dbHash k) L := by
  obtain ⟨L, hc, hsub⟩ := hs.wellChained.exists_chain (dbHash_lt k)
  exact ⟨L, hc, hsub⟩

/-- What a search in the bucket visits. -/
theorem BucketChain.trail {s : State} {h : Nat} {L : List Entry} (hL : BucketChain s h L)
    (hs : Sound s) : Trail s.db.idx.file (bucketPtr s.db.idx.file h) (L.map Entry.stop) :=
  hL.chain.trail fun e he => hs.wellChained.mem e (hL.sub e he).1

/-- Where a store links a record of the bucket. -/
theorem BucketChain.linkSite {s : State} {k : CString} {L : List Entry}
    (hL : BucketChain s (dbHash k) L) :
    LinkSite s.db.idx.file s.written (dbHash k) (linkTarget (dbHash k) (L.map Entry.stop)) :=
  .of_chain (dbHash_lt k) hL.chain hL.sub

/-- Offsets are positive as signed 64-bit numbers. -/
theorem Sound.fits_two_mul {s : State} (hs : Sound s) :
    2 * s.db.idx.file.size < 2 ^ 64 ∧ 2 * s.db.dat.file.size < 2 ^ 64 := by
  obtain ⟨hi, hd⟩ := hs.fits
  omega

/-! ## Stops of a chain -/

/-- Keys are told apart by the names of their stops. -/
theorem name_ne_of_key_ne {L : List Entry} {k : Key} (hk : ∀ e ∈ L, e.key ≠ k) :
    ∀ x ∈ L.map Entry.stop, x.name ≠ k.str.bytes := by
  intro x hx hname
  obtain ⟨e, he, rfl⟩ := List.mem_map.mp hx
  exact hk e he (Key.ext hname)

theorem key_ne_of_name_ne {L : List Entry} {k : Key}
    (hk : ∀ x ∈ L.map Entry.stop, x.name ≠ k.str.bytes) : ∀ e ∈ L, e.key ≠ k := by
  rintro e he rfl
  exact hk e.stop (List.mem_map_of_mem he) rfl

/-- The stop a search finds is a record with the key. -/
theorem exists_of_find?_stop {L : List Entry} {k : Key} {x : Stop}
    (h : (L.map Entry.stop).find? (fun x => x.name = k.str.bytes) = some x) :
    ∃ e ∈ L, e.key = k ∧ x = e.stop := by
  obtain ⟨e, he, rfl⟩ := List.mem_map.mp (List.mem_of_find?_eq_some h)
  have hp := List.find?_some h
  exact ⟨e, he, Key.ext (of_decide_eq_true hp), rfl⟩

/-- In a list without repeated keys the search finds the one record with the key. -/
theorem find?_stop {L : List Entry} (hn : (L.map Entry.key).Nodup) {e : Entry} (he : e ∈ L) :
    (L.map Entry.stop).find? (fun x => x.name = e.key.str.bytes) = some e.stop := by
  cases hf : (L.map Entry.stop).find? (fun x => x.name = e.key.str.bytes) with
  | none =>
    have hne := List.find?_eq_none.mp hf e.stop (List.mem_map_of_mem he)
    simp [Entry.stop] at hne
  | some x =>
    obtain ⟨e', he', hkey, rfl⟩ := exists_of_find?_stop hf
    rw [List.inj_on_of_nodup_map hn he' he hkey]

/-! ## Creation -/

/-- Every byte of a created database is zero. -/
theorem created_byte (i : Nat) :
    createdDb.idx.file.byte i = 0 ∧ createdDb.dat.file.byte i = 0 := by
  simp only [createdDb, dbAlloc, dbCreate, FileStream.fwrite, FileStream.fseeko_zero,
    FileStream.fseeko_natCast, LittleEndian.ofInt_zero, Bool.and_self, ite_true]
  exact ⟨ByteFile.byte_write_zero (ByteFile.byte_write_zero rfl _ _) _ _,
    ByteFile.byte_write_zero rfl _ _⟩

/-- A database just created is its two fixed parts. -/
theorem created_size :
    createdDb.idx.file.size = tableEnd ∧ createdDb.dat.file.size = tdbDataHeaderLen :=
  ⟨rfl, rfl⟩

/-- Every bucket of it is empty. -/
theorem bucketPtr_created (h : Nat) : bucketPtr createdDb.idx.file h = 0 := by
  rw [bucketPtr, ByteFile.read_of_zero fun i _ _ => (created_byte i).1]
  exact LittleEndian.toInt_replicate_zero 8

/-- It is sound, with no record written. -/
theorem sound_created : Sound created := by
  refine ⟨⟨le_rfl, ?_, ?_, ?_, fun h _ => .inl (bucketPtr_created h)⟩, le_rfl, ?_⟩
  · simp [created]
  · simp [created]
  · simp [created]
  · rw [Fits, created, created_size.1, created_size.2]
    decide

/-! ## Stores and fetches -/

/-- What a store does to the files of a sound database. -/
theorem Sound.store_cases {s : State} (hs : Sound s) (hw : Writable s.db) {k : Key} {v : Value}
    {mode : StoreMode} {pad : UInt32} {r : Status} {db : TDB} {L : List Entry}
    (hL : BucketChain s (dbHash k.str) L)
    (h : dbStore allAccepted s.db k.str v.str mode pad = (.ok r, db)) :
    SameFiles s.db db ∨
      (∀ e ∈ L, e.key ≠ k) ∧
        Stored s.db db (appendLinked s.db.idx.file (keyRecordBytes k.str pad s.db.dat.file.size 0)
          (linkTarget (dbHash k.str) (L.map Entry.stop))) v.str ∨
      ∃ e ∈ L, e.key = k ∧
        Stored s.db db (overwriteData s.db.idx.file e.off s.db.dat.file.size) v.str := by
  rcases dbStore_cases hs.wellChained.table k.keyLength v.short.le pad (hL.trail hs) hw hs.dat h with
    hsame | ⟨habs, -, hst⟩ | ⟨x, hx, -, hst⟩
  · exact .inl hsame
  · exact .inr (.inl ⟨key_ne_of_name_ne habs, hst⟩)
  · obtain ⟨e, he, hkey, rfl⟩ := exists_of_find?_stop hx
    exact .inr (.inr ⟨e, he, hkey, hst⟩)

/-- A fetch changes no file. -/
theorem Sound.fetch_sameFiles {s : State} (hs : Sound s) (k : Key) :
    SameFiles s.db (dbFetch s.db k.str).2 := by
  obtain ⟨L, hL⟩ := hs.exists_bucketChain k.str
  exact dbFetch_sameFiles hs.wellChained.table k.keyLength (hL.trail hs)

/-! ## The invariant after a call -/

/-- The state after a key record has been appended. -/
abbrev State.appended (s : State) (k : Key) (db : TDB) : State :=
  ⟨db, s.written ++ [⟨s.db.idx.file.size, k⟩]⟩

/-- Calls that change no file keep a database sound. -/
theorem Sound.congr {s : State} (hs : Sound s) {db : TDB} (hidx : db.idx.file = s.db.idx.file)
    (hdat : db.dat.file = s.db.dat.file) : Sound ⟨db, s.written⟩ := by
  refine ⟨?_, ?_, ?_⟩
  · rw [hidx]
    exact hs.wellChained
  · rw [hdat]
    exact hs.dat
  · rw [Fits, hidx, hdat]
    exact hs.fits

section

variable {s : State} {k : Key} {pad : UInt32} {v : CString} {db : TDB} {target : Nat} {e : Entry}

/-- A store that adds a record keeps it sound. -/
theorem Sound.append (hs : Sound s) (hsite : LinkSite s.db.idx.file s.written (dbHash k.str) target)
    (hst : Stored s.db db (appendLinked s.db.idx.file
      (keyRecordBytes k.str pad s.db.dat.file.size 0) target) v)
    (hfit : Fits db) : Sound (s.appended k db) := by
  refine ⟨?_, ?_, hfit⟩
  · rw [hst.idx]
    exact hs.wellChained.append hsite hs.fits_two_mul.1 pad s.db.dat.file.size
  · show tdbDataHeaderLen ≤ db.dat.file.size
    rw [hst.dat.size, Nat.add_assoc]
    exact hs.dat.trans (Nat.le_add_right _ _)

/-- The store records the new entry. -/
theorem Sound.recorded (hs : Sound s)
    (hsite : LinkSite s.db.idx.file s.written (dbHash k.str) target)
    (hst : Stored s.db db (appendLinked s.db.idx.file
      (keyRecordBytes k.str pad s.db.dat.file.size 0) target) v) :
    s.recorded k db = s.written ++ [⟨s.db.idx.file.size, k⟩] := by
  have hsize : db.idx.file.size = s.db.idx.file.size + 88 := by
    rw [hst.idx, size_appendLinked (length_keyRecordBytes k.short.le ..)
      (hsite.le_size hs.wellChained)]
  rw [State.recorded, if_pos (by omega)]

/-- So does one that replaces a value. -/
theorem Sound.overwrite (hs : Sound s) (he : e ∈ s.written)
    (hst : Stored s.db db (overwriteData s.db.idx.file e.off s.db.dat.file.size) v)
    (hfit : Fits db) : Sound ⟨db, s.written⟩ := by
  refine ⟨?_, ?_, hfit⟩
  · rw [hst.idx]
    exact hs.wellChained.overwriteData he _
  · show tdbDataHeaderLen ≤ db.dat.file.size
    rw [hst.dat.size, Nat.add_assoc]
    exact hs.dat.trans (Nat.le_add_right _ _)

/-- A store that appends no key record records nothing. -/
theorem recorded_of_size_eq (h : db.idx.file.size = s.db.idx.file.size) :
    s.recorded k db = s.written := by
  rw [State.recorded, h, if_neg (Nat.lt_irrefl _)]

/-- A replacement is inside the index file. -/
theorem Sound.size_overwriteData (hs : Sound s) (he : e ∈ s.written) (d : Nat) :
    (overwriteData s.db.idx.file e.off d).size = s.db.idx.file.size := by
  have hw := (hs.wellChained.mem e he).whole
  simp only [keyRecordSize] at hw
  apply ByteFile.size_write_of_le
  rw [LittleEndian.length_ofInt]
  omega

end

end CachelibArchive.Tmdb
