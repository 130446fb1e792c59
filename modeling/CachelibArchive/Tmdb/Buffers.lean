import CachelibArchive.Tmdb.Misplaced
import CachelibArchive.Tmdb.Termination

/-!
# The fixed buffers

A key record has 64 bytes for the key and a fetch 4 MiB for the value, and both
keep a terminator there. The length checks of a store admit strings of exactly
that size, and trimming scans backwards from the last character without a bound.
Databases whose strings leave room for the terminator and are not blank stay
inside, as long as every misplaced pointer leads to a record, to a value that
leaves room, or past the end of the file.
-/

namespace CachelibArchive.Tmdb

/-! ## The accesses -/

/-- `key_record->key`. -/
def recordKeyArray (record : List UInt8) : List UInt8 := (record.drop tdbIntSize).take tdbMaxKeyLen

/-- `rtrim` and the `strcmp` behind it stay inside the key array: the scan for the terminator
ends in it, and the scan backwards meets a character that is not blank. -/
def ScanInside (record : List UInt8) : Prop :=
  0 ∈ recordKeyArray record ∧ ∃ c ∈ (recordKeyArray record).takeWhile (· ≠ 0), isspace c = false

instance (record : List UInt8) : Decidable (ScanInside record) :=
  inferInstanceAs (Decidable (_ ∧ _))

/-- The records that the loop of `_db_find_and_lock` compares. -/
def comparedRecords (key : CString) : Nat → FileStream → Int → List (List UInt8)
  | 0, _, _ => []
  | fuel + 1, idx, keyPtrPos =>
    let (record, idx) := (idx.fseeko keyPtrPos).fread keyRecordSize
    if record.length ≠ keyRecordSize then []
    else record :: match recordKey record with
      | none => []
      | some k =>
        if k = key.bytes ∨ recordNextPtr record = 0 then []
        else comparedRecords key fuel idx (recordNextPtr record)

/-- The records that a search compares. -/
def searchedRecords (db : TDB) (key : CString) : List (List UInt8) :=
  let (buf, idx) := (db.idx.fseeko (tdbIndexHeaderLen + dbHash key * tdbOffSize : Nat)).fread
    tdbOffSize
  if buf.length ≠ tdbOffSize ∨ LittleEndian.toInt buf = 0 then []
  else comparedRecords key (idx.file.size + 1) idx (LittleEndian.toInt buf)

/-- No search leaves a key array, and no fetch leaves a key record or its data buffer. -/
structure Inside (db : TDB) : Prop where
  scan : ∀ key, ∀ record ∈ searchedRecords db key, ScanInside record
  fetch : ∀ key, (dbFetch db key).1 ≠ .error .overrun

/-- A key packed by a store leaves room for the terminator: every store that succeeds has
packed its key, whether it adds a record or not. -/
def TerminatorInside (db : TDB) (key value : CString) (mode : StoreMode) (pad : UInt32) : Prop :=
  ∀ accepts : WriteSite → Bool, (dbStore accepts db key value mode pad).1 = .ok .success →
    key.length < tdbMaxKeyLen

/-! ## Records that leave room -/

/-- The data pointer leads to a value that leaves room for its terminator. -/
def LeadsToRoom (dat : ByteFile) (p : Int) : Prop :=
  ∃ (d : Nat) (v : CString), p = d ∧ DataAt dat d v ∧ v.length < tdbMaxRecordLen

theorem LeadsToRoom.torn {dat dat' : ByteFile} {p : Int} (h : LeadsToRoom dat p)
    (ht : Torn dat dat') : LeadsToRoom dat' p := by
  obtain ⟨d, v, hp, hat, hv⟩ := h
  exact ⟨d, v, hp, hat.torn ht, hv⟩

/-- The pointer leads past the end of a file of this size. -/
def Past (size : Nat) (p : Int) : Prop := (size : Int) ≤ p

/-- Every record has a key that leaves room and is not blank, and leads to a value that
leaves room; a bucket may have gone past the end of the file. -/
structure Roomy (s : Records) : Prop extends Navigable (Past s.db.idx.file.size) s where
  short : ∀ x ∈ s.slots, x.key.length < tdbMaxKeyLen
  text : ∀ x ∈ s.slots, trimmed x.key ≠ []
  data : ∀ x ∈ s.slots, LeadsToRoom s.db.dat.file (dataPtr s.db.idx.file x.off)
  header : DataAt s.db.dat.file 0 CString.empty

theorem roomy_noRecords : Roomy noRecords := by
  refine ⟨navigable_noRecords _, ?_, ?_, ?_, ?_, ?_, rfl⟩
  · simp [noRecords]
  · simp [noRecords]
  · simp [noRecords]
  · exact (by decide : 0 + 0 + 16 ≤ 256)
  · exact ByteFile.read_of_zero fun i _ _ => (created_byte i).2

/-- A string that is not blank and its terminator keep the scans inside. -/
theorem scanInside_of_slot {f : ByteFile} {x : Slot} (hx : x.In f)
    (hshort : x.key.length < tdbMaxKeyLen) (htext : trimmed x.key ≠ []) :
    ScanInside (f.read x.off keyRecordSize) := by
  obtain ⟨m, hm⟩ := Nat.exists_eq_add_of_lt hshort
  have harray : recordKeyArray (f.read x.off keyRecordSize) = x.key.bytes ++ 0 ::
      f.read (x.off + 4 + (x.key.length + 1)) m := by
    have hsplit : tdbMaxKeyLen = (x.key.length + 1) + m := by omega
    rw [recordKeyArray, ByteFile.drop_read _ (by decide), ByteFile.take_read _ (by decide), hsplit,
      ByteFile.read_add, tdbIntSize, hx.name, List.append_assoc]
    rfl
  have hscan : (x.key.bytes ++ 0 :: f.read (x.off + 4 + (x.key.length + 1)) m).takeWhile (· ≠ 0) =
      x.key.bytes := CString.ofBytes_append_nul x.key.nul_free
  refine ⟨?_, ?_⟩
  · rw [harray]
    simp
  · rw [harray, hscan]
    by_contra hblank
    refine htext (List.rdropWhile_eq_nil_iff.mpr fun c hc => ?_)
    by_contra hspace
    exact hblank ⟨c, hc, Bool.eq_false_of_not_eq_true hspace⟩

/-- The loop compares only records of the trail it is on. -/
theorem comparedRecords_mem {key : CString} {fuel : Nat} {idx : FileStream} {p : Int}
    {T : List Stop} (ht : Trail idx.file p T) (hp : p ≠ 0) :
    ∀ record ∈ comparedRecords key fuel idx p, ∃ x ∈ T,
      record = idx.file.read x.off keyRecordSize := by
  induction fuel generalizing idx p T with
  | zero => simp [comparedRecords]
  | succ fuel ih =>
    cases T with
    | nil => exact absurd (trail_nil.mp ht) hp
    | cons x T =>
      obtain ⟨rfl, hx, htail⟩ := trail_cons.mp ht
      have hread : (idx.fseeko x.off).fread keyRecordSize =
          (idx.file.read x.off keyRecordSize, { idx with pos := x.off + keyRecordSize }) := by
        rw [FileStream.fseeko_natCast, FileStream.fread_of_le hx.whole]
      intro record hmem
      rw [comparedRecords] at hmem
      simp only [hread, ByteFile.length_read, ne_eq, not_true_eq_false, ite_false, hx.name,
        recordNextPtr_read, List.mem_cons] at hmem
      rcases hmem with rfl | hmem
      · exact ⟨x, List.mem_cons_self, rfl⟩
      · split_ifs at hmem with hstop
        · cases hmem
        · have htail' : Trail { idx with pos := x.off + keyRecordSize }.file
              (nextPtr idx.file x.off) T := htail
          obtain ⟨y, hy, hrecord⟩ := ih htail' (not_or.mp hstop).2 record hmem
          exact ⟨y, List.mem_cons_of_mem x hy, hrecord⟩

/-- A pointer past the end leads to no record. -/
theorem comparedRecords_past {key : CString} {fuel : Nat} {idx : FileStream} {p : Int}
    (h : Past idx.file.size p) : comparedRecords key fuel idx p = [] := by
  obtain ⟨q, rfl⟩ := Int.eq_ofNat_of_zero_le (Int.le_trans (Int.natCast_nonneg _) h)
  have hq : idx.file.size ≤ q := Int.ofNat_le.mp h
  cases fuel with
  | zero => rfl
  | succ fuel =>
    rw [comparedRecords]
    simp [FileStream.fseeko_natCast, FileStream.fread, Nat.sub_eq_zero_of_le hq, keyRecordSize]

/-! ## Where databases stay inside -/

section roomy

variable {s : Records} (hs : Roomy s)

include hs

/-- A key the search meets is short: it is what trimming left of a short one. -/
theorem Roomy.short_of_firstMatch {key : CString} {x : Slot} (h : FirstMatch s key x) :
    key.length < tdbMaxKeyLen := by
  obtain ⟨hx, -⟩ := hs.find?_of_firstMatch h
  have hle : key.length ≤ x.key.length := by
    rw [CString.length, ← h.name]
    exact (List.rdropWhile_prefix _ _).length_le
  exact hle.trans_lt (hs.short x hx)

/-- No search and no fetch leaves a buffer, whatever key it is for. -/
theorem Roomy.inside : Inside s.db := by
  refine ⟨fun key record hmem => ?_, fun key => ?_⟩
  · rw [searchedRecords, fread_bucket (bucketOff_le hs.table key)] at hmem
    simp only [ByteFile.length_read, tdbOffSize, ne_eq, not_true_eq_false, false_or] at hmem
    split_ifs at hmem with hne
    · cases hmem
    by_cases ha : Past s.db.idx.file.size (bucketPtr s.db.idx.file (dbHash key))
    · rw [← bucketPtr, comparedRecords_past (by exact ha)] at hmem
      cases hmem
    · obtain ⟨L, hc, hsub⟩ := hs.threaded.exists_chain (dbHash_lt key) ha
      have htrail : Trail { s.db.idx with pos := bucketOff (dbHash key) + 8 }.file
          (bucketPtr s.db.idx.file (dbHash key)) (L.map Slot.stop) :=
        hs.threaded.trail hc fun x hx => (hsub x hx).1
      obtain ⟨_, hstop, rfl⟩ := comparedRecords_mem htrail hne record hmem
      obtain ⟨x, hx, rfl⟩ := List.mem_map.mp hstop
      obtain ⟨hx, _⟩ := hsub x hx
      exact scanInside_of_slot (hs.threaded.mem x hx) (hs.short x hx) (hs.text x hx)
  · by_cases hk : KeyLength key
    · by_cases ha : Past s.db.idx.file.size (bucketPtr s.db.idx.file (dbHash key))
      · rw [hs.fetch_astray (fun _ h => h) hk ha]
        simp
      · rcases hs.match_or ha with ⟨L, hno⟩ | ⟨x, hmatch⟩
        · obtain ⟨ht, hne⟩ := hs.trail_of_noMatch hno
          obtain ⟨db, hfetch, _⟩ := dbFetch_absent hs.table hk ht hne
          rw [hfetch]
          simp
        · obtain ⟨hx, -⟩ := hs.find?_of_firstMatch hmatch
          obtain ⟨d, v, hd, hat, hv⟩ := hs.data x hx
          obtain ⟨_, hfetch, _⟩ := fetchData_spec hat hv
          rw [hs.fetch_of_firstMatch hk hmatch, hd, hfetch]
          simp [Except.map]
    · rw [dbFetch_refused s.db hk]
      simp

end roomy

/-! ## What one request does -/

/-- No bucket leads to the 88 bytes behind the end of the index file. -/
def Clear (f : ByteFile) : Prop :=
  ∀ h < tdbMaxHashBucket, Past f.size (bucketPtr f h) → Past (f.size + 88) (bucketPtr f h)

/-- The pointer is zero, the offset of a record of the bucket, or past the end of the file. -/
def LeadsOn (s : Records) (h : Nat) (p : Int) : Prop :=
  p = 0 ∨ (∃ y ∈ s.slots, p = y.off ∧ dbHash y.key = h) ∨ Past s.db.idx.file.size p

/-- Requests that keep to the room there is. A store that adds a record has a key of at most
63 bytes that is not blank and a value below the limit. What the misplaced writes leave behind
leads on: a replacement and a deletion behind the head of a chain leave data pointers that lead to
values with room, and a deletion at the head of bucket `h` leaves bucket `h / 2` empty, with a
record of its own, or past the end of the file. No bucket leads to where the file grows. -/
def Fitting (s : Records) : Request → Prop
  | .store mode key value _ =>
    (mode = .insert ∨ mode = .store → KeyLength key → value.length ≤ tdbMaxRecordLen →
      ∀ L, NoMatch s key L → key.length < tdbMaxKeyLen ∧ trimmed key ≠ [] ∧
        value.length < tdbMaxRecordLen ∧ Clear s.db.idx.file) ∧
    (mode = .replace ∨ mode = .store → KeyLength key → value.length ≤ tdbMaxRecordLen →
      ∀ x, FirstMatch s key x →
        LeadsToRoom s.db.dat.file (slidPtr s.db.idx.file x.off s.db.dat.file.size))
  | .delete key => KeyLength key → ∀ x, FirstMatch s key x →
    if bucketPtr s.db.idx.file (dbHash key) = x.off then
      LeadsOn s (dbHash key / 2) (splicedPtr s.db.idx.file (dbHash key) x.off)
    else
      (∀ y ∈ s.slots, y.off = x.off + 88 →
        LeadsToRoom s.db.dat.file (copiedPtr s.db.idx.file x.off)) ∧
      (s.db.idx.file.size = x.off + 88 → Clear s.db.idx.file)
  | .fetch _ => True
  | .reopen _ => True

section step

variable {s : Records} (hs : Roomy s)

include hs

theorem Roomy.congr {db : TDB} (hidx : db.idx.file = s.db.idx.file)
    (hdat : db.dat.file = s.db.dat.file) : Roomy ⟨db, s.slots⟩ := by
  refine ⟨?_, hs.short, hs.text, ?_, ?_⟩
  · have hnav := hs.toNavigable.congr hidx hdat
    dsimp only
    rwa [hidx]
  · dsimp only
    rw [hidx, hdat]
    exact hs.data
  · dsimp only
    rw [hdat]
    exact hs.header

/-- A store that packs its key leaves room for the terminator. -/
theorem Roomy.terminatorInside {key value : CString} {mode : StoreMode} {pad : UInt32}
    (hfit : Fitting s (.store mode key value pad)) :
    TerminatorInside s.db key value mode pad := by
  intro accepts h
  by_cases hlen : KeyLength key ∧ value.length ≤ tdbMaxRecordLen
  · obtain ⟨hk, hv⟩ := hlen
    by_cases hother : mode = .other
    · subst hother
      rw [dbStore_other] at h
      cases h
    have hst : dbStore accepts s.db key value mode pad =
        (.ok .success, (dbStore accepts s.db key value mode pad).2) := Prod.ext h rfl
    rcases hs.match_or (hs.live_of_store (fun _ h => h) hk hv hother hst) with
      ⟨L, hno⟩ | ⟨x, hmatch⟩
    · by_cases hmode : mode = .insert ∨ mode = .store
      · exact (hfit.1 hmode hk hv L hno).1
      · -- a replacement of an absent key does not get that far
        obtain rfl : mode = .replace := by
          cases mode <;> simp at hmode hother ⊢
        obtain ⟨ht, hne⟩ := hs.trail_of_noMatch hno
        obtain ⟨db, habsent, _⟩ := dbStore_absent_replace hs.table hk hv pad ht accepts hne
        rw [habsent] at h
        cases h
    · exact hs.short_of_firstMatch hmatch
  · rw [dbStore_refused accepts s.db hlen] at h
    cases h

/-- Adding a record. -/
theorem Roomy.appended {key value : CString} {pad : UInt32} (hk : KeyLength key) {L : List Slot}
    (hno : NoMatch s key L) (hshort : key.length < tdbMaxKeyLen) (htext : trimmed key ≠ [])
    (hv : value.length < tdbMaxRecordLen) (hclear : Clear s.db.idx.file) {db : TDB}
    (hst : Stored s.db db (appendLinked s.db.idx.file
      (keyRecordBytes key pad s.db.dat.file.size 0) (linkTarget (dbHash key) (L.map Slot.stop)))
      value) (hfit : Fits db) : Roomy ⟨db, s.grown key db⟩ := by
  obtain ⟨hgrown, hsize, hnav⟩ := (hs.rebase hclear).append hk hno hst hfit
  have hsite := Threaded.site_link hno.sub
  have hdat : 2 * s.db.dat.file.size < 2 ^ 64 := by
    have hd := hs.fits.2
    omega
  rw [hgrown]
  refine ⟨?_, ?_, ?_, ?_, hs.header.torn hst.dat.torn⟩
  · dsimp only
    rwa [hsize]
  all_goals
    intro x hx
    rcases List.mem_append.mp hx with hx | hx
  · exact hs.short x hx
  · rwa [List.mem_singleton.mp hx]
  · exact hs.text x hx
  · rwa [List.mem_singleton.mp hx]
  · show LeadsToRoom db.dat.file (dataPtr db.idx.file x.off)
    rw [hst.idx, hs.threaded.spread.dataPtr_appendLinked _ hsite (List.mem_map_of_mem hx)]
    exact (hs.data x hx).torn hst.dat.torn
  · obtain rfl := List.mem_singleton.mp hx
    show LeadsToRoom db.dat.file (dataPtr db.idx.file s.db.idx.file.size)
    rw [hst.idx, dataPtr_appendLinked_new (hsite.le_size hs.threaded.spread) hk.le pad hdat]
    exact ⟨_, value, rfl, hst.dat.record, hv⟩

/-- Replacing a value sends its record to where the misplaced pointer leads. -/
theorem Roomy.replaced {x : Slot} (hx : x ∈ s.slots)
    (hroom : LeadsToRoom s.db.dat.file (slidPtr s.db.idx.file x.off s.db.dat.file.size))
    {value : CString} {db : TDB}
    (hst : Stored s.db db (overwriteData s.db.idx.file x.off s.db.dat.file.size) value)
    (hfit : Fits db) : Roomy ⟨db, s.slots⟩ := by
  have hnav := hs.overwritten hx (fun hfull => absurd hfull (hs.short x hx).ne) hst hfit
  refine ⟨?_, hs.short, hs.text, fun y hy => ?_, hs.header.torn hst.dat.torn⟩
  · dsimp only
    rwa [hst.idx, hs.threaded.size_overwriteData hx]
  · show LeadsToRoom db.dat.file (dataPtr db.idx.file y.off)
    rw [hst.idx]
    by_cases hxy : x.off = y.off
    · rw [← hxy, dataPtr_overwriteData]
      exact hroom.torn hst.dat.torn
    · rw [hs.threaded.spread.dataPtr_overwriteData_of_ne (List.mem_map_of_mem hx)
        (List.mem_map_of_mem hy) hxy]
      exact (hs.data y hy).torn hst.dat.torn

/-- A deletion whose misplaced pointers lead on. -/
theorem Roomy.deleted {key : CString} (hk : KeyLength key) {x : Slot} (hx : x ∈ s.slots)
    (hmatch : FirstMatch s key x) (hr : Fitting s (.delete key)) {db : TDB}
    (hidx : db.idx.file = unlinkFile s.db.idx.file x.off
      (unlinkTarget s.db.idx.file (dbHash key) x.off))
    (hdat : db.dat.file = s.db.dat.file) (hfit : Fits db) : Roomy ⟨db, s.slots⟩ := by
  have hleads := hr hk x hmatch
  have hmem := List.mem_map_of_mem (f := Slot.off) hx
  have hsize := hs.threaded.spread.size_unlink hmem (dbHash_lt key)
  rw [← hidx] at hsize
  refine ⟨?_, hs.short, hs.text, fun y hy => ?_, ?_⟩
  · show Navigable (Past db.idx.file.size) ⟨db, s.slots⟩
    by_cases hhead : bucketPtr s.db.idx.file (dbHash key) = x.off
    · rw [hsize, if_neg fun h => h.1 hhead]
      rw [if_pos hhead] at hleads
      refine hs.unlinked hx (dbHash_lt key) (fun _ => ?_) hidx hdat hfit
      rcases hleads with hz | hy | hpast
      · exact .inr (.inl hz)
      · exact .inr (.inr hy)
      · exact .inl hpast
    · rw [if_neg hhead] at hleads
      rw [hsize]
      split_ifs with hlast
      · -- the file grows
        refine (hs.rebase (fun b hb hpast => ?_)).unlinked hx (dbHash_lt key)
          (fun h => absurd h hhead) hidx hdat hfit
        have hclear := hleads.2 hlast.2 b hb hpast
        simp only [Past] at hclear ⊢
        omega
      · exact hs.unlinked hx (dbHash_lt key) (fun h => absurd h hhead) hidx hdat hfit
  · show LeadsToRoom db.dat.file (dataPtr db.idx.file y.off)
    rw [hidx, hdat, hs.threaded.spread.dataPtr_unlink hmem (dbHash_lt key) (List.mem_map_of_mem hy)]
    split_ifs with hnext
    · rw [if_neg hnext.1] at hleads
      exact hleads.1 y hy hnext.2
    · exact hs.data y hy
  · dsimp only
    rw [hdat]
    exact hs.header

/-- A request that keeps to the room leaves room. -/
theorem Roomy.serve {t : Records} {r : Request} (hr : Fitting s r) (h : serve s r = some t) :
    Roomy t := by
  have hpast : ∀ p, Past s.db.idx.file.size p → (s.db.idx.file.size : Int) ≤ p := fun _ h => h
  obtain ⟨db, slots⟩ := t
  cases r with
  | store mode key value pad =>
    obtain ⟨hw, ⟨ret, hst⟩, hfit, hslots⟩ := serve_store h
    dsimp only at hst hfit hslots
    subst hslots
    rcases hs.store_cases hpast hw hst with hsame | ⟨hk, hv, ⟨hmode, L, hno, hstored⟩ |
      ⟨hmode, x, hmatch, hstored⟩⟩
    · rw [Records.grown_of_size_eq (congrArg ByteFile.size hsame.idx)]
      exact hs.congr hsame.idx hsame.dat
    · obtain ⟨hshort, htext, hvalue, hclear⟩ := hr.1 hmode hk hv L hno
      exact hs.appended hk hno hshort htext hvalue hclear hstored hfit
    · obtain ⟨hx, -⟩ := hs.find?_of_firstMatch hmatch
      rw [Records.grown_of_size_eq (by rw [hstored.idx, hs.threaded.size_overwriteData hx])]
      exact hs.replaced hx (hr.2 hmode hk hv x hmatch) hstored hfit
  | delete key =>
    obtain ⟨hw, ⟨ret, hdel⟩, hfit, rfl⟩ := serve_delete h
    rcases hs.delete_cases hpast hw hdel with hsame | ⟨hk, x, hmatch, hidx, hdat⟩
    · exact hs.congr hsame.idx hsame.dat
    · obtain ⟨hx, -⟩ := hs.find?_of_firstMatch hmatch
      exact hs.deleted hk hx hmatch hr hidx hdat hfit
  | fetch key =>
    obtain ⟨⟨ret, hfetch⟩, _, rfl⟩ := serve_fetch h
    have hsame := hs.fetch_sameFiles hpast hfetch
    exact hs.congr hsame.idx hsame.dat
  | reopen readOnly =>
    obtain ⟨hidx, hdat, rfl, _⟩ := serve_reopen h
    exact hs.congr hidx hdat

end step

/-! ## Runs -/

/-- Every access stays inside in a state: no search and no fetch leaves a buffer, and no
store that keeps to the room there is. -/
structure InsideFor (s : Records) : Prop extends Inside s.db where
  terminator : ∀ mode key value pad, Fitting s (.store mode key value pad) →
    TerminatorInside s.db key value mode pad

/-- In every run whose requests all keep to the room there is, every access stays inside in
every state reached. -/
theorem insideFor_of_fitting {rs : List Request} (h : Run.EachStep serve Fitting noRecords rs) :
    Run.Always serve InsideFor noRecords rs :=
  Run.EachStep.always (I := Roomy) (fun _ hs => ⟨hs.inside, fun _ _ _ _ => hs.terminatorInside⟩)
    (fun _ _ _ hs hr ht => hs.serve hr ht) roomy_noRecords h

/-- The head of bucket 98 is deleted: bucket 49 leads into the table, to a record whose key is
empty, and trimming reads the byte in front of the array. -/
example : (Run.exec serve noRecords
    [.store .insert ⟨[98], by decide⟩ valueX.str 0, .delete ⟨[98], by decide⟩]).map
    (fun s : Records => decide (∀ record ∈ searchedRecords s.db keyOne.str, ScanInside record)) =
    some false := by decide +kernel

/-! ## Below 4 GiB -/

/-- Requests that keep to the room whatever the search meets: short keys that are not blank and
short values, data files below 4 GiB, and no deletion of a head that leads bucket `h / 2` away. -/
def Cautious (s : Records) : Request → Prop
  | .store _ key value _ => key.length < tdbMaxKeyLen ∧ trimmed key ≠ [] ∧
    value.length < tdbMaxRecordLen ∧ s.db.dat.file.size < 2 ^ 32
  | .delete key => s.db.dat.file.size < 2 ^ 32 ∧ ∀ x ∈ s.slots, trimmed x.key = key.bytes →
    bucketPtr s.db.idx.file (dbHash key) = x.off →
      splicedPtr s.db.idx.file (dbHash key) x.off = 0 ∨
        ∃ y ∈ s.slots, splicedPtr s.db.idx.file (dbHash key) x.off = y.off ∧
          dbHash y.key = dbHash key / 2
  | .fetch _ => True
  | .reopen _ => True

instance (s : Records) : (r : Request) → Decidable (Cautious s r)
  | .store .. => inferInstanceAs (Decidable (_ ∧ _))
  | .delete _ => inferInstanceAs (Decidable (_ ∧ _))
  | .fetch _ => inferInstanceAs (Decidable True)
  | .reopen _ => inferInstanceAs (Decidable True)

section cautious

variable {s : Records} (hs : Roomy s)

include hs

/-- Data pointers are offsets of the data file. -/
theorem Roomy.exists_dataPtr (hsize : s.db.dat.file.size < 2 ^ 32) {x : Slot} (hx : x ∈ s.slots) :
    ∃ d : Nat, d < 2 ^ 32 ∧ dataPtr s.db.idx.file x.off = d := by
  obtain ⟨d, v, hd, hat, -⟩ := hs.data x hx
  have hwhole := hat.whole
  exact ⟨d, by omega, hd⟩

/-- A cautious request leads no bucket away. -/
theorem Roomy.spares {r : Request} (h : Cautious s r) : Spares s r := by
  cases r with
  | store mode key value pad =>
    intro _ _ _ x hmatch hfull
    exact absurd hfull (hs.short x (hs.find?_of_firstMatch hmatch).1).ne
  | delete key =>
    intro _ x hmatch
    exact h.2 x (hs.find?_of_firstMatch hmatch).1 hmatch.name
  | fetch key => trivial
  | reopen readOnly => trivial

/-- As long as no bucket has gone astray, a cautious request keeps to the room there is. -/
theorem Roomy.fitting (hnav : Navigable (fun _ => False) s) {r : Request} (h : Cautious s r) :
    Fitting s r := by
  have hclear : Clear s.db.idx.file := by
    intro b hb hpast
    have htable := hs.table
    simp only [tableEnd, Past] at htable hpast
    rcases hnav.threaded.bucket b hb with hf | hz | ⟨x, hx, hp, -⟩
    · exact hf.elim
    · omega
    · have hwhole := hs.threaded.spread.whole x.off (List.mem_map_of_mem hx)
      simp only [keyRecordSize] at hwhole
      omega
  cases r with
  | store mode key value pad =>
    obtain ⟨hshort, htext, hvalue, hsize⟩ := h
    refine ⟨fun _ _ _ L _ => ⟨hshort, htext, hvalue, hclear⟩, fun _ _ _ x hmatch => ?_⟩
    obtain ⟨d, hd, hptr⟩ := hs.exists_dataPtr hsize (hs.find?_of_firstMatch hmatch).1
    exact ⟨0, CString.empty, slidPtr_of_lt hsize hd hptr, hs.header, by decide⟩
  | delete key =>
    intro _ x hmatch
    have hx := (hs.find?_of_firstMatch hmatch).1
    split_ifs with hhead
    · rcases h.2 x hx hmatch.name hhead with hz | hy
      · exact .inl hz
      · exact .inr (.inl hy)
    · refine ⟨fun y hy hnext => ?_, fun _ => hclear⟩
      obtain ⟨d, hd, hptr⟩ := hs.exists_dataPtr h.1 hx
      obtain ⟨d', hd', hptr'⟩ := hs.exists_dataPtr h.1 hy
      rw [copiedPtr_of_lt hd hd' hptr (hnext ▸ hptr'), ← hptr]
      exact hs.data x hx
  | fetch key => trivial
  | reopen readOnly => trivial

end cautious

/-- Cautious requests keep to the room all along a run. -/
theorem fitting_of_cautious {rs : List Request} (h : Run.EachStep serve Cautious noRecords rs) :
    Run.EachStep serve Fitting noRecords rs :=
  Run.EachStep.imp (I := fun s => Roomy s ∧ Navigable (fun _ => False) s)
    (fun _ _ hs hr => hs.1.fitting hs.2 hr)
    (fun _ _ _ hs hr ht =>
      ⟨hs.1.serve (hs.1.fitting hs.2 hr) ht, hs.2.serve (hs.1.spares hr) ht⟩)
    ⟨roomy_noRecords, navigable_noRecords _⟩ h

/-- Two keys of one bucket, the second replaced, deleted behind the first and fetched, and through
another handle a key that is replaced and then deleted at the head of its bucket. -/
def collidingRequests : List Request :=
  [.store .insert keyZeroA.str valueX.str 0, .store .insert keyRza.str valueY.str 0,
    .store .store keyRza.str valueX.str 0, .fetch keyZeroA.str, .delete keyRza.str,
    .fetch keyRza.str, .reopen false, .store .insert keyOne.str valueX.str 0,
    .store .replace keyOne.str valueY.str 0, .delete keyOne.str, .fetch keyOne.str]

theorem insideFor_colliding : (Run.exec serve noRecords collidingRequests).isSome ∧
    Run.Always serve InsideFor noRecords collidingRequests :=
  ⟨by decide +kernel, insideFor_of_fitting (fitting_of_cautious (by decide +kernel))⟩

/-- A key of 64 bytes. -/
def fullKey : CString := ⟨List.replicate 64 97, by decide⟩

/-- Its terminator is written behind the array, and the search for it scans on into the
padding. -/
theorem not_inside_fullKey :
    KeyLength fullKey ∧ ¬TerminatorInside noRecords.db fullKey valueX.str .insert 0 ∧
      ∃ s, Run.exec serve noRecords [.store .insert fullKey valueX.str 0] = some s ∧
        ¬Inside s.db := by
  have hstore : (dbStore allAccepted noRecords.db fullKey valueX.str .insert 0).1 =
      .ok .success := by decide +kernel
  have hscan : (Run.exec serve noRecords [.store .insert fullKey valueX.str 0]).map
      (fun s : Records => decide (∀ record ∈ searchedRecords s.db fullKey, ScanInside record)) =
      some false := by decide +kernel
  refine ⟨⟨by decide, by decide⟩, fun h => ?_, ?_⟩
  · exact absurd (h allAccepted hstore) (by decide)
  · obtain ⟨s, hs, hfalse⟩ := Option.map_eq_some_iff.mp hscan
    exact ⟨s, hs, fun h => of_decide_eq_false hfalse (h.scan fullKey)⟩

end CachelibArchive.Tmdb
