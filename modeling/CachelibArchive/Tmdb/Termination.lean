import CachelibArchive.Tmdb.Navigable

/-!
# When the bucket search terminates

Stores that add a record keep the index threaded. A replacement does so unless
it overwrites the terminator of a string that fills the key array, and a
deletion exactly when it leaves a zero pointer, or the offset of a record of
that bucket, in the bucket whose table entry it half overwrites. A run whose
requests are all of this kind never reaches a database in which some search
fails to end.
-/

namespace CachelibArchive.Tmdb

/-- Every bucket leads through finitely many whole records, all written by stores for strings of
that bucket which they still hold, to a zero pointer; and every search returns. -/
structure WellFormed (s : Records) : Prop where
  chains : ∀ h < tdbMaxHashBucket, ∃ L, SlotChain s.db.idx.file (bucketPtr s.db.idx.file h) L ∧
    ∀ x ∈ L, x ∈ s.slots ∧ tableEnd ≤ x.off ∧ x.off + keyRecordSize ≤ s.db.idx.file.size ∧
      x.In s.db.idx.file ∧ dbHash x.key = h
  searchEnds : ∀ (key : CString) (isWrite : Bool),
    ∃ ret db, dbFindAndLock s.db key isWrite = (.ok ret, db) ∧ ret ≠ .error

/-! ## The condition -/

/-- The condition on a request. A replacement does not find a record of a 64-byte string, unless
the length of the data file is a multiple of 256; a deletion that finds its record at the head
of bucket `h` leaves zero or the offset of a record of bucket `h / 2` in that bucket. -/
def Spares (s : Records) : Request → Prop
  | .store mode key value _ => (mode = .replace ∨ mode = .store) → KeyLength key →
    value.length ≤ tdbMaxRecordLen → ∀ x, FirstMatch s key x →
      x.key.length = tdbMaxKeyLen → s.db.dat.file.size % 256 = 0
  | .delete key => KeyLength key → ∀ x, FirstMatch s key x →
    bucketPtr s.db.idx.file (dbHash key) = x.off →
      splicedPtr s.db.idx.file (dbHash key) x.off = 0 ∨
        ∃ y ∈ s.slots, splicedPtr s.db.idx.file (dbHash key) x.off = y.off ∧
          dbHash y.key = dbHash key / 2
  | .fetch _ | .reopen _ => True

/-! ## Steps that meet it -/

namespace Navigable

variable {s : Records}

/-- Where no bucket has gone astray the database is well formed. -/
theorem wellFormed (hs : Navigable (fun _ => False) s) : WellFormed s := by
  constructor
  · intro h hh
    obtain ⟨L, hc, hsub⟩ := hs.threaded.exists_chain hh not_false
    refine ⟨L, hc, fun x hx => ?_⟩
    obtain ⟨hx, hash⟩ := hsub x hx
    have hmem := List.mem_map_of_mem (f := Slot.off) hx
    exact ⟨hx, hs.threaded.spread.past _ hmem, hs.threaded.spread.whole _ hmem,
      hs.threaded.mem x hx, hash⟩
  · intro key isWrite
    have hmatch : (∃ L, NoMatch s key L) ∨ ∃ x, FirstMatch s key x := hs.match_or not_false
    obtain ⟨L, hno⟩ | ⟨x, hmatch⟩ := hmatch
    · obtain ⟨ht, hne⟩ := hs.trail_of_noMatch hno
      obtain ⟨ret, db, hfind, _, hret⟩ := dbFindAndLock_absent hs.table isWrite ht hne
      refine ⟨ret, db, hfind, ?_⟩
      rintro rfl
      simp at hret
    · obtain ⟨-, T, ht, hf⟩ := hs.find?_of_firstMatch hmatch
      obtain ⟨db, hfind, _⟩ := dbFindAndLock_exist hs.table isWrite ht hf
      exact ⟨.exist, db, hfind, by decide⟩

/-- Every request keeps the invariant under its condition. -/
theorem serve {t : Records} {r : Request} (hs : Navigable (fun _ => False) s) (hr : Spares s r)
    (h : Tmdb.serve s r = some t) : Navigable (fun _ => False) t := by
  have hpast : ∀ p : Int, False → (s.db.idx.file.size : Int) ≤ p := fun _ => False.elim
  obtain ⟨db, slots⟩ := t
  cases r with
  | store mode key value pad =>
    obtain ⟨hw, ⟨ret, hst⟩, hfit, hslots⟩ := serve_store h
    dsimp only at hst hfit hslots
    subst hslots
    rcases hs.store_cases hpast hw hst with hsame | ⟨hk, hv, ⟨_, L, hno, hstored⟩ |
      ⟨hmode, x, hmatch, hstored⟩⟩
    · rw [Records.grown_of_size_eq (congrArg ByteFile.size hsame.idx)]
      exact hs.congr hsame.idx hsame.dat
    · obtain ⟨hgrown, -, hnext⟩ := hs.append hk hno hstored hfit
      rwa [hgrown]
    · obtain ⟨hx, -⟩ := hs.find?_of_firstMatch hmatch
      rw [Records.grown_of_size_eq (by rw [hstored.idx]; exact hs.threaded.size_overwriteData hx _)]
      exact hs.overwritten hx (hr hmode hk hv x hmatch) hstored hfit
  | delete key =>
    obtain ⟨hw, ⟨ret, hdel⟩, hfit, rfl⟩ := serve_delete h
    rcases hs.delete_cases hpast hw hdel with hsame | ⟨hk, x, hmatch, hidx, hdat⟩
    · exact hs.congr hsame.idx hsame.dat
    · obtain ⟨hx, -⟩ := hs.find?_of_firstMatch hmatch
      exact hs.unlinked hx (dbHash_lt key) (fun hhead => .inr (hr hk x hmatch hhead)) hidx hdat hfit
  | fetch key =>
    obtain ⟨⟨ret, hfetch⟩, _, rfl⟩ := serve_fetch h
    have hsame := hs.fetch_sameFiles hpast hfetch
    exact hs.congr hsame.idx hsame.dat
  | reopen readOnly =>
    obtain ⟨hidx, hdat, rfl, _⟩ := serve_reopen h
    exact hs.congr hidx hdat

/-! ## Why the condition is needed -/

/-- A replacement that has overwritten a terminator leaves a record that no longer holds its
string. -/
theorem spares_store (hs : Navigable (fun _ => False) s) (hw : Writable s.db) {mode : StoreMode}
    {key value : CString} {pad : UInt32} {r : Status} {db : TDB}
    (hst : dbStore allAccepted s.db key value mode pad = (.ok r, db))
    (hwf : WellFormed ⟨db, s.grown key db⟩) : Spares s (.store mode key value pad) := by
  intro hmode hk hv x hmatch
  obtain ⟨hx, T, ht, hf⟩ := hs.find?_of_firstMatch hmatch
  obtain ⟨db', hst', hstored⟩ := dbStore_present_replace hs.table hk hv pad ht hw hs.dat hf hmode
  obtain ⟨-, rfl⟩ := result_unique hst' hst
  have hidx : db'.idx.file = overwriteData s.db.idx.file x.off s.db.dat.file.size := hstored.idx
  obtain ⟨hnext, hbucket⟩ := hs.threaded.pointers_overwriteData hx s.db.dat.file.size
  rw [← hs.threaded.in_overwriteData_iff hx, ← hidx]
  -- the bucket still leads to the record
  obtain ⟨M, hM, hin⟩ := hwf.chains (dbHash key) (dbHash_lt key)
  rw [Records.grown_of_size_eq (by rw [hidx]; exact hs.threaded.size_overwriteData hx _)] at hin
  obtain ⟨A, B, hc, hsub, -, -⟩ := hmatch
  dsimp only at hM
  rw [hidx, hbucket _ (dbHash_lt key)] at hM
  have hold : SlotChain s.db.idx.file (bucketPtr s.db.idx.file (dbHash key)) M :=
    hM.congr fun y hy => (hnext y (hin y hy).1).symm
  have heq := hs.threaded.off_eq hold (fun y hy => (hin y hy).1) hc hsub
  exact (hin x (by rw [heq]; simp)).2.2.2.1

/-- A deletion that leaves anything else in bucket `h / 2` has lost that bucket. -/
theorem spares_delete (hs : Navigable (fun _ => False) s) (hw : Writable s.db) {key : CString}
    {r : Status} {db : TDB} (hdel : dbDelete s.db key = (.ok r, db)) (hwf : WellFormed ⟨db, s.slots⟩) :
    Spares s (.delete key) := by
  intro hk x hmatch hhead
  obtain ⟨hx, T, ht, hf⟩ := hs.find?_of_firstMatch hmatch
  obtain ⟨db', hdel', hidx, _⟩ := dbDelete_present hs.table hk ht hw hf
  obtain ⟨-, rfl⟩ := result_unique hdel' hdel
  have hh := dbHash_lt key
  obtain ⟨M, hc, hM⟩ := hwf.chains (dbHash key / 2) (Nat.lt_of_le_of_lt (Nat.div_le_self _ _) hh)
  have hpast := hs.threaded.spread.past x.off (List.mem_map_of_mem hx)
  dsimp only at hc
  rw [hidx] at hc
  have hsplice := bucketPtr_unlink_head hpast hh hhead
  cases M with
  | nil => exact .inl (hsplice.symm.trans hc)
  | cons y M =>
    obtain ⟨hy, -, -, -, hash⟩ := hM y List.mem_cons_self
    exact .inr ⟨y, hy, hsplice.symm.trans hc.1, hash⟩

/-- A request that leaves a well-formed database has met its condition. -/
theorem spares {t : Records} {r : Request} (hs : Navigable (fun _ => False) s)
    (h : Tmdb.serve s r = some t) (hwf : WellFormed t) : Spares s r := by
  obtain ⟨db, slots⟩ := t
  cases r with
  | fetch | reopen => trivial
  | store mode key value pad =>
    obtain ⟨hw, ⟨ret, hst⟩, _, hslots⟩ := serve_store h
    dsimp only at hst hslots
    subst hslots
    exact hs.spares_store hw hst hwf
  | delete key =>
    obtain ⟨hw, ⟨ret, hdel⟩, _, rfl⟩ := serve_delete h
    exact hs.spares_delete hw hdel hwf

end Navigable

/-- In every run of requests with any strings, every database reached is well formed if and only
if every request the run completes meets its condition. -/
theorem wellFormed_iff_spares (rs : List Request) :
    Run.Always serve WellFormed noRecords rs ↔ Run.EachStep serve Spares noRecords rs :=
  Run.always_iff_eachStep (fun _ hs => hs.wellFormed) (fun _ _ _ hs hr h => hs.serve hr h)
    (fun _ _ _ hs h hwf => hs.spares h hwf) (navigable_noRecords _) rs

/-- A 64-byte key is not found any more once it has been replaced: the terminator is gone. -/
example : (Run.exec serve noRecords
    [.store .insert ⟨List.replicate 64 97, by decide⟩ valueX.str 0,
      .store .replace ⟨List.replicate 64 97, by decide⟩ valueX.str 0]).map
    (fun s => (dbFindAndLock s.db ⟨List.replicate 64 97, by decide⟩ false).1) =
    some (.ok .notExist) := by decide +kernel

/-- An insert of the key 1 and its deletion. -/
def insertDelete : List Request := [.store .insert keyOne.str valueX.str 0, .delete keyOne.str]

/-- One insert and one deletion are enough: the key 1 hashes to bucket 49, and its
deletion puts 2^40 into bucket 24, far behind the end of the index file. -/
theorem not_wellFormed_insertDelete : ¬Run.Always serve WellFormed noRecords insertDelete := by
  intro h
  have hfacts : (Run.exec serve noRecords insertDelete).map
      (fun s => (bucketPtr s.db.idx.file 24, s.db.idx.file.size)) =
      some (2 ^ 40, 5243224) := by decide +kernel
  obtain ⟨s, hrun, hs⟩ := Option.map_eq_some_iff.mp hfacts
  obtain ⟨hptr, hsize⟩ := Prod.mk.inj hs
  obtain ⟨L, hc, hL⟩ := (h.last hrun).chains 24 (by decide)
  rw [hptr] at hc
  cases L with
  | nil =>
    have hz : (2 ^ 40 : Int) = 0 := hc
    omega
  | cons x L =>
    have hwhole := (hL x List.mem_cons_self).2.2.1
    have hoff : (2 ^ 40 : Int) = x.off := hc.1
    simp only [keyRecordSize, hsize] at hwhole
    omega

end CachelibArchive.Tmdb
