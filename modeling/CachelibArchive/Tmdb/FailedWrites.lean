import CachelibArchive.Tmdb.DataWrites
import CachelibArchive.Tmdb.Lead

/-!
# Inserts whose writes fail

An insert reports success whatever became of its writes. What was stored before
is never harmed. The new value is there only if it was written, if its record
and the pointer to it were, and if its key survives the comparison; a pointer
without the record even ends the process that follows it.
-/

namespace CachelibArchive.Tmdb

/-! ## Databases of completed inserts -/

/-- The requests of a program that only inserts. -/
def Request.Builds : Request → Prop
  | .store mode _ _ _ => mode = .insert
  | .reopen _ => True
  | .delete _ | .fetch _ => False

/-- Every record points to the data it was stored with. -/
structure Filled (s : Records) : Prop extends Intact s where
  data : ∀ x ∈ s.slots, ∃ (d : Nat) (v : CString), dataPtr s.db.idx.file x.off = d ∧
    DataAt s.db.dat.file d v ∧ v.length ≤ tdbMaxRecordLen
  modes : s.db.dat.writable = s.db.idx.writable

theorem filled_noRecords : Filled noRecords := by
  refine ⟨intact_noRecords, ?_, rfl⟩
  simp [noRecords]

theorem Filled.congr {s : Records} (hs : Filled s) {db : TDB} (hidx : db.idx.file = s.db.idx.file)
    (hdat : db.dat.file = s.db.dat.file) (hmodes : db.dat.writable = db.idx.writable) :
    Filled ⟨db, s.slots⟩ := by
  refine ⟨hs.toIntact.congr hidx hdat, ?_, hmodes⟩
  dsimp only
  rw [hidx, hdat]
  exact hs.data

/-- A completed insert of a string the search does not meet. -/
theorem Filled.append {s : Records} (hs : Filled s) {key value : CString} (hk : KeyLength key)
    (hv : value.length ≤ tdbMaxRecordLen) {pad : UInt32} {db : TDB}
    (hst : Stored s.db db
      (appendLinked s.db.idx.file (keyRecordBytes key pad s.db.dat.file.size 0)
        (linkTarget (dbHash key) (slotStops s.slots (dbHash key)))) value) (hfit : Fits db) :
    Filled ⟨db, s.grown key db⟩ :=
  ⟨hs.toIntact.append hk hst hfit, hs.toIntact.data_append hk hst hs.data hv,
    hst.datWritable.trans hst.idxWritable.symm⟩

theorem Filled.serve {s t : Records} (hs : Filled s) {r : Request} (hr : r.Builds)
    (h : serve s r = some t) : Filled t := by
  obtain ⟨db, slots⟩ := t
  cases r with
  | store mode key value pad =>
    obtain rfl : mode = .insert := hr
    obtain ⟨hw, ⟨ret, hst⟩, hfit, hslots⟩ := serve_store h
    dsimp only at hst hfit hslots
    subst hslots
    rcases hs.store_cases hw hst with hsame | ⟨hk, hv, ⟨_, _, hstored⟩ | ⟨hmode, _⟩⟩
    · rw [Records.grown_of_size_eq (congrArg ByteFile.size hsame.idx)]
      exact hs.congr hsame.idx hsame.dat
        (hsame.datWritable.trans (hs.modes.trans hsame.idxWritable.symm))
    · exact hs.append hk hv hstored hfit
    · simp at hmode
  | delete key => cases hr
  | fetch key => cases hr
  | reopen readOnly =>
    obtain ⟨hidx, hdat, rfl, hiw, hdw⟩ := serve_reopen h
    exact hs.congr hidx hdat (hdw.trans hiw.symm)

/-- Every run of completed inserts leaves a database whose records point to their data. -/
theorem filled_run {rs : List Request} (hrs : ∀ r ∈ rs, r.Builds) {s : Records}
    (h : Run.exec serve noRecords rs = some s) : Filled s :=
  Run.exec_invariant_of (fun _ _ _ hr hs ht => hs.serve hr ht) hrs filled_noRecords h

/-! ## One insert, whichever writes succeed -/

/-- What an insert of an absent key makes of the files. -/
structure Attempted (accepts : WriteSite → Bool) (s : Records) (key value : CString)
    (pad : UInt32) (db : TDB) : Prop where
  idx : db.idx.file = linkedFile s.db.idx.file (keyRecordBytes key pad s.db.dat.file.size 0)
    (linkTarget (dbHash key) (slotStops s.slots (dbHash key)))
    (s.db.idx.writable && accepts .keyRecord) (s.db.idx.writable && accepts .link)
  dat : db.dat = (storeData accepts s.db.dat value).2

/-- It reports success. -/
theorem Intact.attempt {s : Records} (hs : Intact s) {key value : CString} (hk : KeyLength key)
    (hv : value.length ≤ tdbMaxRecordLen) (pad : UInt32) (accepts : WriteSite → Bool)
    (h : ¬Met s.slots key) :
    ∃ db, dbStore accepts s.db key value .insert pad = (.ok .success, db) ∧
      Attempted accepts s key value pad db := by
  obtain ⟨ret, db', dat', hsearched, hret, hd, hst⟩ := dbStore_absent_eq hs.table hk hv pad
    (hs.trail key) accepts (name_ne_of_not_met h) (.inl rfl)
  have hkey := (storeKey_eq accepts { db' with dat := dat' } ret _ hret key pad
    s.db.dat.file.size).1
  dsimp only at hkey
  rw [hsearched.file, hsearched.writable] at hkey
  refine ⟨_, hst, hkey, ?_⟩
  rw [hd]
  rfl

section attempted

variable {accepts : WriteSite → Bool} {s : Records} (hs : Filled s) {key value : CString}
  {pad : UInt32} {db : TDB} (ha : Attempted accepts s key value pad db)

include hs ha

theorem Attempted.table : tableEnd ≤ db.idx.file.size := by
  rw [ha.idx]
  exact hs.table.trans (size_le_linkedFile ..)

/-- No fetch of another value sees any of it. -/
theorem Attempted.fetch_kept {k w : CString} (h : (dbFetch s.db k).1 = .ok (some w)) :
    (dbFetch db k).1 = .ok (some w) := by
  have hk : KeyLength k := by
    by_contra hk
    rw [dbFetch_refused s.db hk] at h
    cases h
  have hmet : Met s.slots k := by
    by_contra hmet
    obtain ⟨db', hfetch, _⟩ := dbFetch_absent hs.table hk (hs.trail k) (name_ne_of_not_met hmet)
    rw [hfetch] at h
    cases h
  obtain ⟨A, x, B, hsplit, hname, hA⟩ := exists_of_met hmet
  have hx : x ∈ s.slots := (mem_slotsIn.mp (by rw [hsplit]; simp)).1
  obtain ⟨d, v, hd, hat, hv⟩ := hs.data x hx
  have hlead := hs.slotted.lead [] false false (dbHash_lt key) hsplit hname hA
  rw [hlead.fetch hs.table hk, hd] at h
  -- a value that was fetched left room for its terminator
  have hshort : v.length < tdbMaxRecordLen := by
    refine lt_of_le_of_ne hv fun hmax => ?_
    rw [fetchData_full hat hmax] at h
    cases h
  have hlead' := hs.slotted.lead (keyRecordBytes key pad s.db.dat.file.size 0)
    (s.db.idx.writable && accepts .keyRecord) (s.db.idx.writable && accepts .link)
    (dbHash_lt key) hsplit hname hA
  rw [← ha.idx] at hlead'
  have hat' : DataAt db.dat.file d v := by
    rw [ha.dat]
    exact hat.torn (storeData_torn accepts s.db.dat value)
  have hptr : dataPtr db.idx.file x.off = d := by
    rw [ha.idx, hs.slotted.spread.dataPtr_linkedFile _ _ _ (site_slotStops s.slots (dbHash_lt key))
      (List.mem_map_of_mem hx), hd]
  obtain ⟨_, hold, _⟩ := fetchData_spec hat hshort
  obtain ⟨_, hnew, _⟩ := fetchData_spec hat' hshort
  rw [hlead'.fetch (ha.table hs) hk, hptr, hnew]
  rw [hold] at h
  exact h

/-- Every record that was there is still what it was to a search. -/
theorem Attempted.stops : ∀ y ∈ slotsIn s.slots (dbHash key), y.stop.In db.idx.file := by
  rw [ha.idx]
  exact fun y hy => hs.slotted.stop_linkedFile _ _ _ (dbHash_lt key) (mem_slotsIn.mp hy).1

variable (hk : KeyLength key) (hmet : ¬Met s.slots key)

include hk hmet

/-- Nothing is found where nothing was linked. -/
theorem Attempted.fetch_unlinked (hlink : (s.db.idx.writable && accepts .link) = false) :
    (dbFetch db key).1 = .ok none := by
  have htrail : Trail db.idx.file (bucketPtr db.idx.file (dbHash key))
      (slotStops s.slots (dbHash key)) := by
    have hsite := site_slotStops s.slots (dbHash_lt key)
    refine ⟨List.forall_mem_map.mpr (ha.stops hs), ?_⟩
    rw [ha.idx, hs.slotted.spread.bucketPtr_linkedFile _ _ _ hsite (dbHash_lt key)
      (by simp [hlink])]
    refine (hs.trail key).chain.congr fun y hy => ?_
    obtain ⟨x, hx, rfl⟩ := List.mem_map.mp hy
    exact hs.slotted.spread.nextPtr_linkedFile _ _ _ hsite
      (List.mem_map_of_mem (mem_slotsIn.mp hx).1) (by simp [hlink])
  obtain ⟨_, hfetch, _⟩ := dbFetch_absent (ha.table hs) hk htrail (name_ne_of_not_met hmet)
  rw [hfetch]

/-- A pointer to a record that was not written ends the process. -/
theorem Attempted.fetch_dangling (hrecord : (s.db.idx.writable && accepts .keyRecord) = false)
    (hlink : (s.db.idx.writable && accepts .link) = true) :
    (dbFetch db key).1 = .error .exit := by
  have hsub := slotsIn_off_subset s.slots (dbHash key)
  have hg : db.idx.file = appendLinked s.db.idx.file []
      (linkOff (dbHash key) ((slotsIn s.slots (dbHash key)).map Slot.off)) := by
    rw [ha.idx, hrecord, hlink, linkTarget_slotStops, appendLinked, ByteFile.write_nil]
    rfl
  have hle := (Site.linkOff (dbHash_lt key) hsub).le_size hs.slotted.spread
  have hsize : db.idx.file.size = s.db.idx.file.size := by
    rw [hg, appendLinked, ByteFile.write_nil, ByteFile.size_write_of_le]
    rwa [LittleEndian.length_ofInt]
  have hend : nextPtr db.idx.file s.db.idx.file.size = 0 := by
    rw [nextPtr, ByteFile.read_of_zero]
    · exact LittleEndian.toInt_replicate_zero 8
    · intro i hi _
      exact db.idx.file.zero_past i (by omega)
  rw [hg] at hend
  -- the end of the file stands where the record would
  have hchain := hs.slotted.spread.chain_concat hs.fits_two_mul.1 hsub
    (hs.slotted.chain _ (dbHash_lt key)) (dbHash_lt key)
    (hs.slotted.nodup.sublist (List.filter_sublist.map _)) hend
  rw [← hg] at hchain
  have hlead := (Linked.chain_append_cons.mp hchain).1
  rw [Linked.chain_map] at hlead
  have hlen := (hs.trail key).length_le
  have hsearch := dbFindAndLock_dangling (ha.table hs) false
    (List.forall_mem_map.mpr (ha.stops hs)) hsize.le (by rw [Linked.chain_map]; exact hlead)
    (name_ne_of_not_met hmet) (by rwa [hsize])
  generalize hr : dbFindAndLock db key false = r at hsearch
  obtain ⟨r, db'⟩ := r
  dsimp only at hsearch
  subst hsearch
  simp only [dbFetch, hk.ok, hr, ite_false]

/-- With its record and the pointer to it, a key that ends in text leads to its value. -/
theorem Attempted.fetch_linked (hrecord : (s.db.idx.writable && accepts .keyRecord) = true)
    (hlink : (s.db.idx.writable && accepts .link) = true) :
    (dbFetch db key).1 = if EndsInText key
      then (fetchData db.dat s.db.dat.file.size).1.map some else .ok none := by
  have hg := ha.idx
  rw [hrecord, hlink, linkedFile_true] at hg
  have hle := (site_slotStops s.slots (dbHash_lt key)).le_size hs.slotted.spread
  have hslotted := hs.slotted.append hk.le hs.fits_two_mul.1 pad s.db.dat.file.size
  rw [← hg] at hslotted
  split_ifs with htext
  · have hlead := hslotted.lead [] false false (dbHash_lt key) (k := key) (B := [])
      (slotsIn_append_of_eq rfl) ((trimmed_eq_iff key).mpr htext) fun y hy hname => hmet
        ⟨y, (mem_slotsIn.mp hy).1, (mem_slotsIn.mp hy).2, hname⟩
    have hptr : dataPtr db.idx.file s.db.idx.file.size = s.db.dat.file.size := by
      rw [hg]
      exact dataPtr_appendLinked_new hle hk.le pad hs.fits_two_mul.2
    rw [hlead.fetch (ha.table hs) hk, hptr]
  · have hmet' : ¬Met (s.slots ++ [⟨s.db.idx.file.size, key⟩]) key := by
      rintro ⟨x, hx, hash, hname⟩
      rcases List.mem_append.mp hx with hx | hx
      · exact hmet ⟨x, hx, hash, hname⟩
      · obtain rfl := List.mem_singleton.mp hx
        exact htext ((trimmed_eq_iff key).mp hname)
    obtain ⟨_, hfetch, _⟩ := dbFetch_absent (ha.table hs) hk (hslotted.trail (dbHash_lt key))
      (name_ne_of_not_met hmet')
    rw [hfetch]

/-- When a fetch of the new key returns the value. -/
theorem Attempted.fetch_eq_iff :
    (dbFetch db key).1 = .ok (some value) ↔ Writable s.db ∧ accepts .keyRecord = true ∧
      accepts .link = true ∧ EndsInText key ∧ value.length < tdbMaxRecordLen ∧
      DataReaches accepts s.db.dat.file.size value := by
  by_cases hlink : (s.db.idx.writable && accepts .link) = true
  · by_cases hrecord : (s.db.idx.writable && accepts .keyRecord) = true
    · rw [ha.fetch_linked hs hk hmet hrecord hlink]
      obtain ⟨hw, hlink⟩ := Bool.and_eq_true_iff.mp hlink
      obtain ⟨-, hrecord⟩ := Bool.and_eq_true_iff.mp hrecord
      have hdw := hs.modes.trans hw
      have hdata : (fetchData db.dat s.db.dat.file.size).1 = .ok value ↔
          value.length < tdbMaxRecordLen ∧ DataReaches accepts s.db.dat.file.size value := by
        rw [ha.dat]
        constructor
        · intro h
          exact ⟨(fetchData_ok h).2.1, dataReaches_of_fetchData hdw hs.dat accepts value h⟩
        · rintro ⟨hv, h⟩
          exact fetchData_of_dataReaches hdw hs.dat accepts value hv h
      split_ifs with htext
      · have hmap : (fetchData db.dat s.db.dat.file.size).1.map some = .ok (some value) ↔
            (fetchData db.dat s.db.dat.file.size).1 = .ok value := by
          cases (fetchData db.dat s.db.dat.file.size).1 with
          | error fault => exact ⟨nofun, nofun⟩
          | ok v => simp [Except.map]
        rw [hmap, hdata]
        exact ⟨fun h => ⟨⟨hw, hdw⟩, hrecord, hlink, htext, h⟩, fun h => h.2.2.2.2⟩
      · exact iff_of_false (by simp) fun h => htext h.2.2.2.1
    · rw [ha.fetch_dangling hs hk hmet (Bool.eq_false_of_not_eq_true hrecord) hlink]
      refine iff_of_false nofun fun h => hrecord ?_
      rw [h.1.idx, h.2.1, Bool.and_self]
  · rw [ha.fetch_unlinked hs hk hmet (Bool.eq_false_of_not_eq_true hlink)]
    refine iff_of_false (by simp) fun h => hlink ?_
    rw [h.1.idx, h.2.2.1, Bool.and_self]

end attempted

/-! ## What success means -/

/-- A store that reports success happened, and no store harms what was there. -/
structure Truthful (accepts : WriteSite → Bool) (db : TDB) (key value : CString) (pad : UInt32) :
    Prop where
  stored : (dbStore accepts db key value .insert pad).1 = .ok .success →
    (dbFetch (dbStore accepts db key value .insert pad).2 key).1 = .ok (some value)
  kept : ∀ k w, (dbFetch db k).1 = .ok (some w) →
    (dbFetch (dbStore accepts db key value .insert pad).2 k).1 = .ok (some w)

/-- After every run of completed inserts, an insert of an absent key is truthful exactly if
the length checks refuse it, or the handle is open for writing, the key record, the pointer to
it and the data the fetch depends on are written, the key ends in text and the value leaves
room for a terminator. -/
theorem truthful_iff_written {rs : List Request} (hrs : ∀ r ∈ rs, r.Builds) {s : Records}
    (hrun : Run.exec serve noRecords rs = some s) (accepts : WriteSite → Bool)
    {key : CString} (value : CString) (pad : UInt32) (habsent : (dbFetch s.db key).1 = .ok none) :
    Truthful accepts s.db key value pad ↔
      (KeyLength key → value.length ≤ tdbMaxRecordLen → Writable s.db ∧
        accepts .keyRecord = true ∧ accepts .link = true ∧ EndsInText key ∧
        value.length < tdbMaxRecordLen ∧ DataReaches accepts s.db.dat.file.size value) := by
  have hs := filled_run hrs hrun
  by_cases hlen : KeyLength key ∧ value.length ≤ tdbMaxRecordLen
  · obtain ⟨hk, hv⟩ := hlen
    have hmet : ¬Met s.slots key := by
      intro hmet
      obtain ⟨A, x, B, hsplit, hname, hA⟩ := exists_of_met hmet
      have hlead := hs.slotted.lead [] false false (dbHash_lt key) hsplit hname hA
      rw [hlead.fetch hs.table hk] at habsent
      generalize (fetchData s.db.dat _).1 = r at habsent
      cases r <;> cases habsent
    obtain ⟨db, hst, ha⟩ := hs.attempt hk hv pad accepts hmet
    rw [imp_iff_right hk, imp_iff_right hv, ← ha.fetch_eq_iff hs hk hmet]
    constructor
    · intro h
      have hstored := h.stored
      rw [hst] at hstored
      exact hstored rfl
    · intro h
      refine ⟨?_, ?_⟩
      · rw [hst]
        exact fun _ => h
      · rw [hst]
        exact fun k w => ha.fetch_kept hs
  · refine iff_of_true ⟨?_, ?_⟩ fun hk hv => absurd ⟨hk, hv⟩ hlen
    · rw [dbStore_refused accepts s.db hlen .insert pad]
      simp
    · rw [dbStore_refused accepts s.db hlen .insert pad]
      exact fun _ _ h => h

/-- Two keys stored through two handles. -/
def storedPair : List Request :=
  [.store .insert keyZeroA.str valueX.str 0, .reopen false, .store .insert keyOne.str valueY.str 0]

/-- Every write but one succeeds. -/
def allBut (site : WriteSite) : WriteSite → Bool := fun site' => decide (site' ≠ site)

/-- Behind them, the insert of a key in the bucket of the first does without its last next field,
and not without the pointer to it. -/
theorem truthful_storedPair : ∃ s, Run.exec serve noRecords storedPair = some s ∧
    Truthful (allBut .dataNext) s.db keyRza.str valueX.str 0 ∧
      ¬Truthful (allBut .link) s.db keyRza.str valueX.str 0 := by
  have hfacts : (Run.exec serve noRecords storedPair).map (fun s =>
      ((dbFetch s.db keyRza.str).1, s.db.idx.writable, s.db.dat.writable)) =
        some (.ok none, true, true) := by decide +kernel
  obtain ⟨s, hs, hresults⟩ := Option.map_eq_some_iff.mp hfacts
  simp only [Prod.mk.injEq] at hresults
  obtain ⟨habsent, hidx, hdat⟩ := hresults
  have hbuilds : ∀ r ∈ storedPair, r.Builds := by simp [storedPair, Request.Builds]
  refine ⟨s, hs, (truthful_iff_written hbuilds hs _ _ 0 habsent).mpr fun _ _ => ?_, fun h => ?_⟩
  · exact ⟨⟨hidx, hdat⟩, by decide, by decide, keyRza.trimmed, by decide, .inr rfl, by decide⟩
  · have hwritten := (truthful_iff_written hbuilds hs _ _ 0 habsent).mp h (by decide) (by decide)
    exact absurd hwritten.2.2.1 (by decide)

/-- An insert through a handle opened with mode "r" reports success and stores nothing. -/
theorem not_truthful_readOnly :
    ∃ s, Run.exec serve noRecords [.reopen true] = some s ∧
      (dbFetch s.db keyOne.str).1 = .ok none ∧
      ¬Truthful allAccepted s.db keyOne.str valueX.str 0 := by
  have hcalls : (Run.exec serve noRecords [.reopen true]).map (fun s =>
      ((dbFetch s.db keyOne.str).1,
        (dbStore allAccepted s.db keyOne.str valueX.str .insert 0).1,
        (dbFetch (dbStore allAccepted s.db keyOne.str valueX.str .insert 0).2 keyOne.str).1)) =
      some (.ok none, .ok .success, .ok none) := by decide +kernel
  obtain ⟨s, hs, hresults⟩ := Option.map_eq_some_iff.mp hcalls
  simp only [Prod.mk.injEq] at hresults
  obtain ⟨habsent, hsuccess, hlost⟩ := hresults
  refine ⟨s, hs, habsent, fun h => ?_⟩
  have hstored := h.stored hsuccess
  rw [hlost] at hstored
  cases hstored

end CachelibArchive.Tmdb
