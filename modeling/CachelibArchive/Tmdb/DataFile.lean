import CachelibArchive.Tmdb.Invariant

/-!
# The data file as a list of records

A store appends one record and writes its offset into the record before, unless
the file is so short that the new record counts as the first. The files of runs
of stores are compared with the layout the next fields are there for: one record
behind the other, each with the offset of the following one.
-/

namespace CachelibArchive.Tmdb

/-! ## The linked layout -/

/-- A record whose next field holds `next`. -/
def linkedRecord (v : CString) (next : Nat) : List UInt8 :=
  LittleEndian.ofInt 4 0 ++ LittleEndian.ofInt 4 v.length ++ v.bytes ++ LittleEndian.ofInt 8 next

/-- The size of a record on disk. -/
def recordSize (v : CString) : Nat := v.length + 16

/-- Records one behind the other from an offset, each with the offset of the following one. -/
def layout : Nat → List CString → List UInt8
  | _, [] => []
  | _, [v] => linkedRecord v 0
  | off, v :: w :: vs =>
    linkedRecord v (off + recordSize v) ++ layout (off + recordSize v) (w :: vs)

/-- Where those records start. -/
def recordOffsets : Nat → List CString → List Nat
  | _, [] => []
  | off, v :: vs => off :: recordOffsets (off + recordSize v) vs

/-- The next field of the record at an offset, behind as many bytes as its length says. -/
def recordNext (f : ByteFile) (off : Nat) : Nat :=
  LittleEndian.toNat (f.read (off + 8 + LittleEndian.toNat (f.read (off + 4) 4)) 8)

/-- The header of the data file. -/
def dataHeader : List UInt8 := List.replicate tdbDataHeaderLen 0

/-- The file is the header and exactly these records, and following the next fields
from the first visits them all in order. -/
structure Laid (f : ByteFile) (vs : List CString) : Prop where
  bytes : f.contents = dataHeader ++ layout tdbDataHeaderLen vs
  walk : vs ≠ [] → Linked.Chain id (recordNext f) 0 tdbDataHeaderLen
    (recordOffsets tdbDataHeaderLen vs)

theorem length_linkedRecord (v : CString) (next : Nat) :
    (linkedRecord v next).length = recordSize v := by
  simp only [linkedRecord, List.length_append, LittleEndian.length_ofInt, recordSize,
    CString.length]
  omega

theorem length_dataHeader : dataHeader.length = tdbDataHeaderLen := List.length_replicate

theorem dataRecordBytes_eq (v : CString) : dataRecordBytes v = linkedRecord v 0 := rfl

theorem length_layout (off : Nat) (vs : List CString) :
    (layout off vs).length = (vs.map recordSize).sum := by
  induction vs generalizing off with
  | nil => rfl
  | cons u vs ih =>
    cases vs with
    | nil => simp [layout, length_linkedRecord]
    | cons w vs =>
      rw [layout, List.length_append, length_linkedRecord, ih]
      rfl

/-- Appending a record to a layout turns the last next field from zero to its offset. -/
theorem layout_concat (off : Nat) {vs : List CString} (hvs : vs ≠ []) (v : CString) :
    ∃ body, layout off vs = body ++ LittleEndian.ofInt 8 0 ∧
      layout off (vs ++ [v]) =
        body ++ LittleEndian.ofInt 8 (off + (layout off vs).length : Nat) ++ linkedRecord v 0 := by
  induction vs generalizing off with
  | nil => contradiction
  | cons u vs ih =>
    cases vs with
    | nil =>
      refine ⟨LittleEndian.ofInt 4 0 ++ LittleEndian.ofInt 4 u.length ++ u.bytes, rfl, ?_⟩
      rw [layout, length_linkedRecord]
      rfl
    | cons w vs =>
      obtain ⟨body, hbody, hmore⟩ := ih (off + recordSize u) (List.cons_ne_nil w vs)
      refine ⟨linkedRecord u (off + recordSize u) ++ body, ?_, ?_⟩
      · rw [layout, hbody, List.append_assoc]
      · rw [List.cons_append, List.cons_append, layout, ← List.cons_append, hmore, layout,
          List.length_append, length_linkedRecord, ← Nat.add_assoc]
        simp only [List.append_assoc]

/-! ## Walking the file -/

/-- The fields of a record found at its offset. -/
theorem recordNext_of_contents {f : ByteFile} {pre post : List UInt8} {v : CString} {next : Nat}
    (h : f.contents = pre ++ linkedRecord v next ++ post) (hv : v.length < 256 ^ 4)
    (hnext : next < 256 ^ 8) : recordNext f pre.length = next := by
  have hlen : LittleEndian.toNat (f.read (pre.length + 4) 4) = v.length := by
    have hslice : f.contents = (pre ++ LittleEndian.ofInt 4 0) ++ LittleEndian.ofInt 4 v.length ++
        (v.bytes ++ LittleEndian.ofInt 8 next ++ post) := by
      simp only [h, linkedRecord, List.append_assoc]
    have hs := ByteFile.read_of_contents hslice
    rw [List.length_append, LittleEndian.length_ofInt, LittleEndian.length_ofInt] at hs
    rw [hs, LittleEndian.toNat_ofInt_natCast hv]
  have hslice : f.contents = (pre ++ LittleEndian.ofInt 4 0 ++ LittleEndian.ofInt 4 v.length ++
      v.bytes) ++ LittleEndian.ofInt 8 next ++ post := by
    simp only [h, linkedRecord, List.append_assoc]
  have hs := ByteFile.read_of_contents hslice
  simp only [List.length_append, LittleEndian.length_ofInt, Nat.add_assoc, Nat.reduceAdd] at hs
  rw [recordNext, hlen, Nat.add_assoc, show v.length = v.bytes.length from rfl, hs,
    LittleEndian.toNat_ofInt_natCast hnext]

/-- In a file that ends in a layout, following the next fields visits its records in order. -/
theorem walk_of_layout {f : ByteFile} {pre : List UInt8} {vs : List CString} (hvs : vs ≠ [])
    (h : f.contents = pre ++ layout pre.length vs) (hlong : ∀ v ∈ vs, v.length < 256 ^ 4)
    (hsize : f.size < 256 ^ 8) :
    Linked.Chain id (recordNext f) 0 pre.length (recordOffsets pre.length vs) := by
  induction vs generalizing pre with
  | nil => contradiction
  | cons u vs ih =>
    have hu := hlong u List.mem_cons_self
    cases vs with
    | nil =>
      have hlast : f.contents = pre ++ linkedRecord u 0 ++ [] := by
        rw [h, layout, List.append_nil]
      exact ⟨rfl, recordNext_of_contents hlast hu (by decide)⟩
    | cons w vs =>
      have hlink : (pre ++ linkedRecord u (pre.length + recordSize u)).length =
          pre.length + recordSize u := by
        rw [List.length_append, length_linkedRecord]
      have hrest : f.contents = pre ++ linkedRecord u (pre.length + recordSize u) ++
          layout (pre.length + recordSize u) (w :: vs) := by
        rw [h, layout, List.append_assoc]
      have hle : pre.length + recordSize u ≤ f.size := by
        rw [← f.length_contents, hrest, List.length_append, hlink]
        exact Nat.le_add_right _ _
      refine ⟨rfl, ?_⟩
      rw [recordNext_of_contents hrest hu (hle.trans_lt hsize), ← hlink]
      apply ih (List.cons_ne_nil w vs)
      · rw [hrest, hlink]
      · exact fun v hv => hlong v (List.mem_cons_of_mem u hv)

/-! ## One store -/

/-- A record that counts as the first is appended and nothing else happens. -/
theorem storeData_first {dat : FileStream} (hw : dat.writable = true)
    (hsize : dat.file.size < tdbDataHeaderLen + dataRecordSize) (v : CString) :
    (storeData allAccepted dat v).2.file.contents = dat.file.contents ++ linkedRecord v 0 := by
  rw [(storeData_file hw v).1, if_pos hsize, ByteFile.contents_write_size]
  rfl

/-- Any other record extends the layout the file ends in. -/
theorem storeData_layout {dat : FileStream} (hw : dat.writable = true)
    (hsize : ¬dat.file.size < tdbDataHeaderLen + dataRecordSize) {pre : List UInt8}
    {vs : List CString} (hvs : vs ≠ []) (h : dat.file.contents = pre ++ layout pre.length vs)
    (v : CString) :
    (storeData allAccepted dat v).2.file.contents = pre ++ layout pre.length (vs ++ [v]) := by
  obtain ⟨body, hbody, hmore⟩ := layout_concat pre.length hvs v
  have hlen : dat.file.size = pre.length + (layout pre.length vs).length := by
    rw [← dat.file.length_contents, h, List.length_append]
  have hold : dat.file.contents = (pre ++ body) ++ LittleEndian.ofInt 8 0 := by
    rw [h, hbody, List.append_assoc]
  have hpatch : dat.file.size - 8 = (pre ++ body).length := by
    rw [hlen, hbody, List.length_append, List.length_append, LittleEndian.length_ofInt]
    omega
  have hp8 := LittleEndian.length_ofInt 8 (dat.file.size : Int)
  have hpatched := ByteFile.contents_write hold
    (show (LittleEndian.ofInt 8 0).length ≤ (LittleEndian.ofInt 8 dat.file.size).length by
      rw [hp8, LittleEndian.length_ofInt])
  have hsame : (dat.file.write (pre ++ body).length (LittleEndian.ofInt 8 dat.file.size)).size =
      dat.file.size := by
    apply ByteFile.size_write_of_le
    rw [hp8, ← hpatch]
    simp only [tdbDataHeaderLen] at hsize
    omega
  have happend := ByteFile.contents_write_size
    (dat.file.write (pre ++ body).length (LittleEndian.ofInt 8 dat.file.size)) (dataRecordBytes v)
  rw [hsame] at happend
  rw [(storeData_file hw v).1, if_neg hsize, hpatch, happend, hpatched, hmore, ← hlen,
    dataRecordBytes_eq]
  simp only [List.append_assoc]

/-! ## Runs of stores -/

/-- The arguments of a `_db_store`, and the padding it finds in uninitialised memory. -/
structure StoreCall where
  key : CString
  value : CString
  mode : StoreMode
  pad : UInt32

/-- The open handle, and the values of the stores that were executed, in order. -/
structure Stores where
  db : TDB
  values : List CString

/-- A database just created. -/
def noStores : Stores := ⟨createdDb, []⟩

/-- One store that returns, its file operations succeeding. -/
def storeCall (s : Stores) (c : StoreCall) : Option Stores :=
  match dbStore allAccepted s.db c.key c.value c.mode c.pad with
  | (.error _, _) => none
  | (.ok r, db) =>
    if Fits db then some ⟨db, if r = .success then s.values ++ [c.value] else s.values⟩ else none

/-- What the stores leave behind the header. A first record of less than eight data
bytes is shorter than the struct, so the second one counts as the first again. -/
def records : List CString → List UInt8
  | [] => []
  | v :: vs =>
    if v.length < 8 then linkedRecord v 0 ++ layout (tdbDataHeaderLen + recordSize v) vs
    else layout tdbDataHeaderLen (v :: vs)

/-- The data file of a run: header and records, and every value passed the length check. -/
structure Recorded (s : Stores) : Prop where
  writable : s.db.dat.writable = true
  bytes : s.db.dat.file.contents = dataHeader ++ records s.values
  short : ∀ v ∈ s.values, v.length ≤ tdbMaxRecordLen
  fits : Fits s.db

theorem recorded_noStores : Recorded noStores := by
  refine ⟨rfl, ?_, ?_, sound_created.fits⟩
  · rw [show noStores.values = [] from rfl, records, List.append_nil]
    exact ByteFile.read_of_zero fun i _ _ => (created_byte i).2
  · simp [noStores]

/-- What an executed store appends to the file. -/
theorem storeData_records {dat : FileStream} (hw : dat.writable = true) {vs : List CString}
    (h : dat.file.contents = dataHeader ++ records vs) (v : CString) :
    (storeData allAccepted dat v).2.file.contents = dataHeader ++ records (vs ++ [v]) := by
  have hsize : dat.file.size = tdbDataHeaderLen + (records vs).length := by
    rw [← dat.file.length_contents, h, List.length_append, length_dataHeader]
  have hfirst : ∀ u : CString, u.length < 8 ↔
      tdbDataHeaderLen + recordSize u < tdbDataHeaderLen + dataRecordSize := by
    intro u
    simp only [recordSize, dataRecordSize]
    omega
  cases vs with
  | nil =>
    rw [storeData_first hw (by rw [hsize]; decide), h, records, List.append_nil, List.nil_append,
      records]
    split_ifs
    · rw [layout, List.append_nil]
    · rfl
  | cons u vs =>
    rw [List.cons_append]
    by_cases hu : u.length < 8
    · simp only [records, if_pos hu] at h hsize ⊢
      rw [← List.append_assoc] at h ⊢
      have hpre : (dataHeader ++ linkedRecord u 0).length = tdbDataHeaderLen + recordSize u := by
        rw [List.length_append, length_dataHeader, length_linkedRecord]
      by_cases hvs : vs = []
      · subst hvs
        rw [layout, List.append_nil] at h hsize
        rw [length_linkedRecord] at hsize
        rw [storeData_first hw (by rw [hsize, ← hfirst]; exact hu), h]
        rfl
      · have hnot : ¬dat.file.size < tdbDataHeaderLen + dataRecordSize := by
          obtain ⟨w, vs, rfl⟩ := List.exists_cons_of_ne_nil hvs
          rw [hsize, List.length_append, length_linkedRecord, length_layout, List.map_cons,
            List.sum_cons]
          simp only [recordSize, dataRecordSize]
          omega
        rw [← hpre] at h ⊢
        exact storeData_layout hw hnot hvs h v
    · simp only [records, if_neg hu] at h hsize ⊢
      have hnot : ¬dat.file.size < tdbDataHeaderLen + dataRecordSize := by
        rw [hsize, length_layout, List.map_cons, List.sum_cons]
        simp only [recordSize, dataRecordSize]
        omega
      rw [← length_dataHeader] at h ⊢
      exact storeData_layout hw hnot (List.cons_ne_nil u vs) h v

/-- One store keeps the file to the records of the executed stores. -/
theorem Recorded.storeCall {s s' : Stores} (hs : Recorded s) {c : StoreCall}
    (h : storeCall s c = some s') : Recorded s' := by
  unfold Tmdb.storeCall at h
  generalize hst : dbStore allAccepted s.db c.key c.value c.mode c.pad = result at h
  obtain ⟨r, db⟩ := result
  cases r with
  | error fault => cases h
  | ok r =>
    simp only [Option.ite_none_right_eq_some, Option.some.injEq] at h
    obtain ⟨hfit, rfl⟩ := h
    rcases dbStore_dat hst with ⟨hr, hdat⟩ | ⟨rfl, hshort, hdat⟩
    · rw [if_neg hr]
      refine ⟨?_, ?_, hs.short, hfit⟩
      · rw [hdat]
        exact hs.writable
      · rw [hdat]
        exact hs.bytes
    · rw [if_pos rfl]
      refine ⟨?_, ?_, ?_, hfit⟩
      · rw [hdat]
        exact (storeData_file hs.writable c.value).2
      · rw [hdat]
        exact storeData_records hs.writable hs.bytes c.value
      · intro v hv
        rcases List.mem_append.mp hv with hv | hv
        · exact hs.short v hv
        · rwa [List.mem_singleton.mp hv]

/-- Every run of stores from creation keeps the file to the records of the executed ones. -/
theorem recorded_run {calls : List StoreCall} {s : Stores}
    (h : Run.exec storeCall noStores calls = some s) : Recorded s :=
  Run.exec_invariant (fun _ _ _ hs ht => hs.storeCall ht) recorded_noStores h

/-! ## Where the layout is right -/

/-- What the stores leave is the linked layout unless a second record follows a short first one. -/
theorem records_eq_layout_iff (vs : List CString) :
    records vs = layout tdbDataHeaderLen vs ↔
      vs.length ≤ 1 ∨ ∀ v ∈ vs.head?, 8 ≤ v.length := by
  rcases vs with _ | ⟨u, _ | ⟨w, vs⟩⟩
  · exact iff_of_true rfl (.inl (Nat.zero_le 1))
  · refine iff_of_true ?_ (.inl le_rfl)
    rw [records]
    split_ifs
    · rw [layout, layout, List.append_nil]
    · rfl
  · have hcond : ((u :: w :: vs).length ≤ 1 ∨ ∀ v ∈ (u :: w :: vs).head?, 8 ≤ v.length) ↔
        8 ≤ u.length := by simp
    rw [hcond, records]
    split_ifs with hu
    · refine iff_of_false ?_ (Nat.not_le_of_lt hu)
      rw [layout]
      intro h
      -- the next field of the first record is zero where the layout has an offset
      have hrecord := (List.append_inj h (by simp only [length_linkedRecord])).1
      have hnext := (List.append_inj hrecord rfl).2
      have hzero : LittleEndian.toNat (LittleEndian.ofInt 8 (0 : Nat)) = 0 :=
        LittleEndian.toNat_ofInt_natCast (by decide)
      rw [hnext, LittleEndian.toNat_ofInt_natCast] at hzero
      · simp [recordSize] at hzero
      · simp only [tdbDataHeaderLen, recordSize]
        omega
    · exact iff_of_true rfl (Nat.le_of_not_lt hu)

theorem Recorded.laid_iff {s : Stores} (hs : Recorded s) :
    Laid s.db.dat.file s.values ↔ records s.values = layout tdbDataHeaderLen s.values := by
  constructor
  · intro h
    exact List.append_cancel_left (hs.bytes.symm.trans h.bytes)
  · intro h
    have hbytes := hs.bytes
    rw [h] at hbytes
    refine ⟨hbytes, fun hne => ?_⟩
    rw [← length_dataHeader] at hbytes ⊢
    refine walk_of_layout hne hbytes (fun v hv => ?_) ?_
    · have hv := hs.short v hv
      simp only [tdbMaxRecordLen] at hv
      omega
    · have hfit := hs.fits.2
      omega

/-- After every run of stores the data file is the linked sequence of their records
exactly when at most one was executed or the first value has eight bytes or more. -/
theorem laid_iff_first_long {calls : List StoreCall} {s : Stores}
    (h : Run.exec storeCall noStores calls = some s) :
    Laid s.db.dat.file s.values ↔
      s.values.length ≤ 1 ∨ ∀ v ∈ s.values.head?, 8 ≤ v.length :=
  (recorded_run h).laid_iff.trans (records_eq_layout_iff s.values)

/-- Two inserts, the first of a value of eight bytes. -/
def longThenShort : List StoreCall :=
  [⟨keyOne.str, ⟨List.replicate 8 120, by decide⟩, .insert, 0⟩,
    ⟨keyTwo.str, valueY.str, .insert, 0⟩]

/-- Two inserts of one byte each. -/
def twoShort : List StoreCall :=
  [⟨keyOne.str, valueX.str, .insert, 0⟩, ⟨keyTwo.str, valueY.str, .insert, 0⟩]

theorem laid_longThenShort :
    ∃ s, Run.exec storeCall noStores longThenShort = some s ∧
      (Laid s.db.dat.file s.values ↔
        s.values.length ≤ 1 ∨ ∀ v ∈ s.values.head?, 8 ≤ v.length) := by
  obtain ⟨s, hs⟩ := Option.isSome_iff_exists.mp
    (by decide +kernel : (Run.exec storeCall noStores longThenShort).isSome)
  exact ⟨s, hs, laid_iff_first_long hs⟩

/-- The next field of the first record stays zero, so a walk never reaches the second. -/
theorem not_laid_twoShort :
    ∃ s, Run.exec storeCall noStores twoShort = some s ∧ s.values = [valueX.str, valueY.str] ∧
      ¬Laid s.db.dat.file s.values := by
  have hvalues : (Run.exec storeCall noStores twoShort).map Stores.values =
      some [valueX.str, valueY.str] := by decide +kernel
  obtain ⟨s, hs, hv⟩ := Option.map_eq_some_iff.mp hvalues
  refine ⟨s, hs, hv, ?_⟩
  rw [(recorded_run hs).laid_iff, records_eq_layout_iff, hv]
  decide

end CachelibArchive.Tmdb
