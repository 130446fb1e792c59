import CachelibArchive.Tmdb.Contents

/-!
# Replacing a value

A replacement writes the offset of the new data record right behind the key
array, where the padding is, so only its high half reaches `data_ptr`. While the
data file is below 4 GiB that half is zero, and so is the high half of the old
pointer: the record now points at the header of the data file, which reads as an
empty record. The map therefore changes as if the empty string had been stored.
-/

namespace CachelibArchive.Tmdb

/-- The value a replacement leaves behind. -/
def emptyValue : Value := ⟨CString.empty, by decide⟩

/-! ## The data pointer after a replacement -/

theorem dataPtr_overwriteData_of_ne {f : ByteFile} {es : List Entry} (w : WellChained f es)
    {e x : Entry} (he : e ∈ es) (hx : x ∈ es) (hne : e ≠ x) (d : Nat) :
    dataPtr (overwriteData f e.off d) x.off = dataPtr f x.off := by
  have ha := (w.apart he hx).resolve_left hne
  rw [dataPtr, overwriteData, ByteFile.read_write_of_disjoint, dataPtr]
  rw [LittleEndian.length_ofInt]
  omega

/-! ## The map after a replacement -/

/-- Replacing a present key. -/
theorem Indexed.replace_present {s : State} (hi : Indexed s) (hw : Writable s.db) {e : Entry}
    (he : e ∈ s.written) (v : Value) {mode : StoreMode} (hmode : mode = .replace ∨ mode = .store)
    (pad : UInt32) :
    ∃ db, dbStore allAccepted s.db e.key.str v.str mode pad = (.ok .success, db) ∧
      Stored s.db db (overwriteData s.db.idx.file e.off s.db.dat.file.size) v.str :=
  dbStore_present_replace hi.wellChained.table e.key.keyLength v.short.le pad (hi.trail _) hw hi.dat
    (hi.find?_stops he) hmode

/-- A replacement keeps every chain. -/
theorem Indexed.overwrite {s : State} (hi : Indexed s) {e : Entry} (he : e ∈ s.written) {db : TDB}
    {v : CString} (hst : Stored s.db db (overwriteData s.db.idx.file e.off s.db.dat.file.size) v)
    (hfit : Fits db) : Indexed ⟨db, s.written⟩ := by
  have hh : Harmless s.written (e.off + 68)
      (LittleEndian.ofInt 8 (s.db.dat.file.size : Int)).length := by
    rw [LittleEndian.length_ofInt]
    exact hi.wellChained.harmless_overwrite he
  have hpast : tableEnd ≤ e.off + 68 :=
    Nat.le_add_right_of_le (hi.wellChained.mem e he).past
  refine ⟨hi.toSound.overwrite he hst hfit, ?_, hi.nodup⟩
  intro h hb
  rw [hst.idx, overwriteData, bucketPtr_write_of_past hpast hb]
  exact (hi.chain h hb).congr fun x hx => hh.nextPtr (mem_inBucket.mp hx).1

/-- In a data file below 4 GiB a replacement stores the empty string, whatever its value. -/
theorem Rep.overwrite {s : State} {m : Key → Option Value} (hr : Rep s m)
    (hheader : DataAt s.db.dat.file 0 emptyValue.str) (hsize : s.db.dat.file.size < 2 ^ 32)
    {e : Entry} (he : e ∈ s.written) {db : TDB} {v : CString}
    (hst : Stored s.db db (overwriteData s.db.idx.file e.off s.db.dat.file.size) v)
    (hfit : Fits db) : Rep ⟨db, s.written⟩ (Function.update m e.key (some emptyValue)) := by
  refine ⟨hr.toIndexed.overwrite he hst hfit, ?_, ?_⟩
  · intro x hx
    obtain ⟨w, hm, d, hd, hw⟩ := hr.value x hx
    rw [hst.idx]
    by_cases hex : e = x
    · subst hex
      have hlt := hw.whole
      refine ⟨emptyValue, Function.update_self .., 0, ?_, hheader.torn hst.dat.torn⟩
      exact dataPtr_overwriteData_self hsize (by omega) hd
    · have hkey : x.key ≠ e.key := fun h =>
        hex (List.inj_on_of_nodup_map hr.nodup he hx h.symm)
      refine ⟨w, by rwa [Function.update_of_ne hkey], d, ?_, hw.torn hst.dat.torn⟩
      rwa [dataPtr_overwriteData_of_ne hr.wellChained he hx hex]
  · intro k hk
    rw [Function.update_of_ne (Ne.symm (hk e he))]
    exact hr.absent k hk

/-- Below 4 GiB one more record still fits. -/
theorem Indexed.fits_overwrite {s : State} (hi : Indexed s) (hsize : s.db.dat.file.size < 2 ^ 32)
    {e : Entry} (he : e ∈ s.written) {db : TDB} {v : Value}
    (hst : Stored s.db db (overwriteData s.db.idx.file e.off s.db.dat.file.size) v.str) :
    Fits db := by
  have hv := v.short
  have hgrow := hst.dat.size
  simp only [tdbMaxRecordLen] at hv
  refine ⟨?_, by omega⟩
  rw [hst.idx, hi.size_overwriteData he]
  exact hi.fits.1

/-! ## Runs without deletions -/

/-- Calls that delete nothing. -/
def Op.KeepsRecords : Op → Prop
  | .delete _ => False
  | _ => True

/-- What a run without deletions keeps: the chains, the header, and below 4 GiB a map. -/
structure Kept (s : State) : Prop where
  indexed : Indexed s
  header : DataAt s.db.dat.file 0 emptyValue.str
  rep : s.db.dat.file.size < 2 ^ 32 → ∃ m, Rep s m

theorem Kept.congr {s : State} (hk : Kept s) {db : TDB} (hidx : db.idx.file = s.db.idx.file)
    (hdat : db.dat.file = s.db.dat.file) : Kept ⟨db, s.written⟩ := by
  refine ⟨hk.indexed.congr hidx hdat, ?_, ?_⟩
  · rw [hdat]
    exact hk.header
  · rw [hdat]
    intro hsize
    obtain ⟨m, hr⟩ := hk.rep hsize
    exact ⟨m, hr.congr hidx hdat⟩

theorem kept_created : Kept created := by
  refine ⟨rep_created.toIndexed, ⟨?_, ?_, rfl⟩, fun _ => ⟨_, rep_created⟩⟩
  · exact (by decide : 0 + 0 + 16 ≤ 256)
  · exact ByteFile.read_of_zero fun i _ _ => (created_byte i).2

theorem Kept.step {s s' : State} {op : Op} (hk : Kept s) (hop : op.KeepsRecords)
    (h : Tmdb.step s op = some s') : Kept s' := by
  cases op with
  | store mode k v pad =>
    obtain ⟨hw, ⟨r, hst⟩, hfit, hrec⟩ := step_store h
    obtain ⟨db, written⟩ := s'
    simp only at hst hfit hrec
    subst hrec
    rcases hk.indexed.store_cases hw (hk.indexed.bucketChain (dbHash_lt _)) hst with
      hs | ⟨habs, hs⟩ | ⟨e, he, rfl, hs⟩
    · rw [recorded_of_size_eq (congrArg _ hs.idx)]
      exact hk.congr hs.idx hs.dat
    · replace habs := key_ne_of_inBucket habs
      have hgrow := hs.dat.size
      rw [hk.indexed.recorded (hk.indexed.linkSite k) hs]
      refine ⟨hk.indexed.append habs hs hfit, hk.header.torn hs.dat.torn, fun hsize => ?_⟩
      obtain ⟨m, hr⟩ := hk.rep (by simp only at hsize; omega)
      exact ⟨_, hr.append habs hs hfit⟩
    · replace he := (mem_inBucket.mp he).1
      have hgrow := hs.dat.size
      rw [recorded_of_size_eq (by rw [hs.idx, hk.indexed.size_overwriteData he])]
      refine ⟨hk.indexed.overwrite he hs hfit, hk.header.torn hs.dat.torn, fun hsize => ?_⟩
      have hlt : s.db.dat.file.size < 2 ^ 32 := by simp only at hsize; omega
      obtain ⟨m, hr⟩ := hk.rep hlt
      exact ⟨_, hr.overwrite hk.header hlt he hs hfit⟩
  | delete k => cases hop
  | fetch k =>
    obtain ⟨⟨r, hf⟩, _, hrec⟩ := step_fetch h
    obtain ⟨db, written⟩ := s'
    obtain rfl : written = s.written := hrec
    have hs := hk.indexed.fetch_sameFiles k
    rw [hf] at hs
    exact hk.congr hs.idx hs.dat
  | reopen readOnly =>
    obtain ⟨⟨db, written⟩, ht, hidx, hdat, hrec, _⟩ := step_reopen s readOnly
    obtain rfl := Option.some.inj (ht.symm.trans h)
    obtain rfl : written = s.written := hrec
    exact hk.congr hidx hdat

theorem kept_of_run {ops : List Op} {s : State} (hops : ∀ op ∈ ops, op.KeepsRecords)
    (h : Run.exec Tmdb.step created ops = some s) : Kept s :=
  Run.exec_invariant_of (fun _ _ _ hop hk ht => hk.step hop ht) hops kept_created h

/-! ## The replace law -/

/-- A successful replacement is fetched back, no other fetch changes, and the
record of the key keeps its flag, its key bytes and its next pointer. -/
def ReplaceLaw (s : State) (k : Key) (v : Value) (mode : StoreMode) (pad : UInt32) : Prop :=
  ∀ db, dbStore allAccepted s.db k.str v.str mode pad = (.ok .success, db) →
    (dbFetch db k.str).1 = .ok (some v.str) ∧
    (∀ k' : Key, k' ≠ k → (dbFetch db k'.str).1 = (dbFetch s.db k'.str).1) ∧
    ∀ e ∈ s.written, e.key = k →
      db.idx.file.read e.off (tdbIntSize + tdbMaxKeyLen) =
        s.db.idx.file.read e.off (tdbIntSize + tdbMaxKeyLen) ∧
      nextPtr db.idx.file e.off = nextPtr s.db.idx.file e.off

/-- In a data file below 4 GiB the law holds of exactly the replacements that
store the empty string; replacing an absent key writes nothing. -/
theorem replaceLaw_iff_empty {ops : List Op} {s : State} (hops : ∀ op ∈ ops, op.KeepsRecords)
    (h : Run.exec step created ops = some s) (k : Key) (v : Value) (pad : UInt32) :
    (Present s k → ∀ mode, mode = .replace ∨ mode = .store → Writable s.db →
      s.db.dat.file.size < 2 ^ 32 → (ReplaceLaw s k v mode pad ↔ v.str.bytes = [])) ∧
    (¬Present s k → ∃ db, dbStore allAccepted s.db k.str v.str .replace pad = (.ok .ok, db) ∧
      db.idx.file = s.db.idx.file ∧ db.dat.file = s.db.dat.file) := by
  have hk := kept_of_run hops h
  constructor
  · rintro ⟨e, he, rfl⟩ mode hmode hw hsize
    obtain ⟨m, hr⟩ := hk.rep hsize
    obtain ⟨db, hst, hs⟩ := hr.replace_present hw he v hmode pad
    have hr' := hr.overwrite hk.header hsize he hs (hr.fits_overwrite hsize he hs)
    obtain ⟨db', hfetch, _⟩ := hr'.fetch e.key
    rw [Function.update_self] at hfetch
    constructor
    · intro hlaw
      have hv := (hlaw db hst).1
      rw [hfetch] at hv
      have hstr : emptyValue.str = v.str := Option.some.inj (Except.ok.inj hv)
      rw [← hstr]
      rfl
    · intro hv db₁ hst₁
      obtain ⟨-, rfl⟩ := result_unique hst hst₁
      have hstr : emptyValue.str = v.str := CString.ext hv.symm
      refine ⟨?_, ?_, ?_⟩
      · rw [hfetch, ← hstr]
        rfl
      · intro k' hne
        obtain ⟨_, hnew, _⟩ := hr'.fetch k'
        obtain ⟨_, hold, _⟩ := hr.fetch k'
        rw [hnew, hold, Function.update_of_ne hne]
      · intro x hx hkey
        obtain rfl : x = e := List.inj_on_of_nodup_map hr.nodup hx he hkey
        have hh := hr.wellChained.harmless_overwrite he
        rw [← LittleEndian.length_ofInt 8 (s.db.dat.file.size : Int)] at hh
        rw [hs.idx, overwriteData]
        exact ⟨ByteFile.read_write_of_disjoint _ (.inl le_rfl), hh.nextPtr he⟩
  · intro habs
    obtain ⟨db, hst, hs⟩ := hk.indexed.replace_absent
      (fun e he hkey => habs ⟨e, he, hkey⟩) v pad
    exact ⟨db, hst, hs.idx, hs.dat⟩

/-- The empty string is replaced by itself. -/
theorem replaceLaw_iff_empty_one : ReplaceLaw oneStored keyOne emptyValue .replace 0 :=
  ((replaceLaw_iff_empty (by simp [Op.KeepsRecords]) exec_oneStored keyOne emptyValue 0).1
    (by decide +kernel) .replace (.inl rfl) (by decide +kernel) (by decide +kernel)).mpr rfl

/-- A value that is not empty is lost: the key is present, the call returns
TDB_SUCCESS, and the empty string is fetched back. -/
theorem replaceLaw_fails :
    Run.exec step created [.store .insert keyOne valueX 0] = some oneStored ∧
      Present oneStored keyOne ∧ ¬ReplaceLaw oneStored keyOne valueY .replace 0 := by
  refine ⟨exec_oneStored, by decide +kernel, fun hlaw => ?_⟩
  have hstatus : (dbStore allAccepted oneStored.db keyOne.str valueY.str .replace 0).1 =
      .ok .success := by decide +kernel
  have hfetch := (hlaw _ (Prod.ext hstatus rfl)).1
  revert hfetch
  decide +kernel

end CachelibArchive.Tmdb
