import CachelibArchive.Tmdb.Data
import CachelibArchive.Tmdb.Frame

/-!
# One lemma for each outcome of an operation

What a store, a fetch and a delete do to the two files, given the trail of the
key's bucket. Nothing else about the index is assumed, so the lemmas also serve
where the invariant has been lost.
-/

namespace CachelibArchive.Tmdb

/-- A store wrote a data record, and the index file became `g`. -/
structure Stored (db db' : TDB) (g : ByteFile) (v : CString) : Prop where
  idx : db'.idx.file = g
  idxWritable : db'.idx.writable = true
  dat : Appended db.dat.file db'.dat.file v
  datWritable : db'.dat.writable = true

/-- The handle permits writing and both files hold their fixed parts. -/
structure Writable (db : TDB) : Prop where
  idx : db.idx.writable = true
  dat : db.dat.writable = true

theorem SameFiles.writable {db db' : TDB} (h : SameFiles db db') (hw : Writable db) :
    Writable db' :=
  ⟨h.idxWritable.trans hw.idx, h.datWritable.trans hw.dat⟩

/-! ## Stores -/

/-- The index half of a store of an absent key, whichever writes succeed. -/
theorem storeKey_eq (accepts : WriteSite → Bool) (db : TDB) (ret : KeyStatus) (target : Nat)
    (hr : ret = .first ∧ target = bucketOff db.hash ∨
      ret = .notExist ∧ db.preidx = (target + tdbOffSize : Nat))
    (key : CString) (pad : UInt32) (d : Nat) :
    (storeKey accepts db ret key pad d).file =
        linkedFile db.idx.file (keyRecordBytes key pad d 0) target
          (db.idx.writable && accepts .keyRecord) (db.idx.writable && accepts .link) ∧
      (storeKey accepts db ret key pad d).writable = db.idx.writable := by
  have hseek (s : FileStream) : (if ret = .first then
      s.fseeko (tdbIndexHeaderLen + db.hash * tdbOffSize : Nat)
      else s.fseeko (db.preidx - tdbOffSize)) = { s with pos := target } := by
    rcases hr with ⟨rfl, rfl⟩ | ⟨rfl, hp⟩
    · rw [if_pos rfl, FileStream.fseeko_natCast]
      rfl
    · have hcast : db.preidx - (tdbOffSize : Nat) = (target : Nat) := by
        rw [hp]
        simp only [tdbOffSize]
        omega
      rw [if_neg (by decide), hcast, FileStream.fseeko_natCast]
  unfold storeKey
  simp only [fseekEnd_zero, hseek]
  unfold FileStream.fwrite linkedFile
  split_ifs <;> simp_all

/-- Both writes succeed. -/
theorem storeKey_file (db : TDB) (hw : db.idx.writable = true) (ret : KeyStatus) (target : Nat)
    (hr : ret = .first ∧ target = bucketOff db.hash ∨
      ret = .notExist ∧ db.preidx = (target + tdbOffSize : Nat))
    (key : CString) (pad : UInt32) (d : Nat) :
    (storeKey allAccepted db ret key pad d).file =
        appendLinked db.idx.file (keyRecordBytes key pad d 0) target ∧
      (storeKey allAccepted db ret key pad d).writable = true := by
  have h := storeKey_eq allAccepted db ret target hr key pad d
  rw [hw] at h
  exact h

/-- Arguments the length checks refuse change nothing. -/
theorem dbStore_refused (accepts : WriteSite → Bool) (db : TDB) {key value : CString}
    (h : ¬(KeyLength key ∧ value.length ≤ tdbMaxRecordLen)) (mode : StoreMode) (pad : UInt32) :
    dbStore accepts db key value mode pad = (.ok .error, db) := by
  unfold dbStore
  by_cases hkey : key.length ≤ 0 ∨ tdbMaxKeyLen < key.length
  · rw [if_pos hkey, ite_self]
  · have hlong : tdbMaxRecordLen < value.length := by
      obtain ⟨hz, hl⟩ := not_or.mp hkey
      exact Nat.lt_of_not_le fun hv => h ⟨⟨Nat.lt_of_not_le hz, Nat.le_of_not_lt hl⟩, hv⟩
    rw [if_pos hlong, ite_self, ite_self]

/-- What a store of any key does to the data file: nothing, or what its data half does. -/
theorem dbStore_dat {db db' : TDB} {key value : CString} {mode : StoreMode} {pad : UInt32}
    {r : Status} (h : dbStore allAccepted db key value mode pad = (.ok r, db')) :
    r ≠ .success ∧ db'.dat = db.dat ∨
      r = .success ∧ value.length ≤ tdbMaxRecordLen ∧
        db'.dat = (storeData allAccepted db.dat value).2 := by
  have hrefused : (Except.ok Status.error, db) = ((.ok r, db') : Except Fault Status × TDB) →
      r ≠ .success ∧ db'.dat = db.dat := by
    rintro ⟨⟩
    exact ⟨by decide, rfl⟩
  have hdat := dbFindAndLock_dat db key true
  unfold dbStore at h
  by_cases hmode : mode = .other
  · rw [if_pos hmode] at h
    exact .inl (hrefused h)
  rw [if_neg hmode] at h
  by_cases hkey : key.length ≤ 0 ∨ tdbMaxKeyLen < key.length
  · rw [if_pos hkey] at h
    exact .inl (hrefused h)
  rw [if_neg hkey] at h
  by_cases hvalue : tdbMaxRecordLen < value.length
  · rw [if_pos hvalue] at h
    exact .inl (hrefused h)
  rw [if_neg hvalue] at h
  generalize dbFindAndLock db key true = searched at h hdat
  obtain ⟨ret, db₁⟩ := searched
  rcases ret with fault | ret
  · cases h
  · dsimp only at hdat
    cases ret with
    | error =>
      cases h
      exact .inl ⟨by decide, hdat⟩
    | first | notExist | exist =>
      simp only at h
      split_ifs at h <;> cases h
      all_goals first
        | exact .inl ⟨by decide, hdat⟩
        | exact .inr ⟨rfl, Nat.le_of_not_lt hvalue, by rw [← hdat]; rfl⟩

/-- An unknown mode is refused before anything is read. -/
theorem dbStore_other (accepts : WriteSite → Bool) (db : TDB) (key value : CString)
    (pad : UInt32) : dbStore accepts db key value .other pad = (.ok .error, db) := rfl

section store

variable {db : TDB} (hidx : tableEnd ≤ db.idx.file.size) {key value : CString}
  (hk : KeyLength key) (hv : value.length ≤ tdbMaxRecordLen) {mode : StoreMode} (pad : UInt32)
  {T : List Stop} (ht : Trail db.idx.file (bucketPtr db.idx.file (dbHash key)) T)

include hidx hk hv ht

/-- Inserting a present key writes nothing. -/
theorem dbStore_present_insert (accepts : WriteSite → Bool) {s : Stop}
    (hf : T.find? (fun x => x.name = key.bytes) = some s) :
    ∃ db', dbStore accepts db key value .insert pad = (.ok .ok, db') ∧ SameFiles db db' := by
  obtain ⟨db', hs, h, _⟩ := dbFindAndLock_exist hidx true ht hf
  have hlong : ¬tdbMaxRecordLen < value.length := Nat.not_lt_of_le hv
  refine ⟨db'.lock .unlocked, ?_, h.sameFiles.lock _⟩
  simp only [dbStore, hk.ok, hlong, hs, reduceCtorEq, and_self, ite_true, ite_false]

/-- Replacing an absent key writes nothing. -/
theorem dbStore_absent_replace (accepts : WriteSite → Bool) (hf : ∀ s ∈ T, s.name ≠ key.bytes) :
    ∃ db', dbStore accepts db key value .replace pad = (.ok .ok, db') ∧ SameFiles db db' := by
  obtain ⟨ret, db', hs, h, hret⟩ := dbFindAndLock_absent hidx true ht hf
  have hlong : ¬tdbMaxRecordLen < value.length := Nat.not_lt_of_le hv
  refine ⟨db'.lock .unlocked, ?_, h.sameFiles.lock _⟩
  rcases hret with ⟨rfl, -⟩ | ⟨rfl, -⟩ <;>
    simp only [dbStore, hk.ok, hlong, hs, reduceCtorEq, and_self, or_true, true_or,
      ite_true, ite_false]

/-- Storing an absent key, whichever writes succeed. -/
theorem dbStore_absent_eq (accepts : WriteSite → Bool) (hf : ∀ s ∈ T, s.name ≠ key.bytes)
    (hmode : mode = .insert ∨ mode = .store) :
    ∃ ret db' dat', Searched db key .exclusive db' ∧
      (ret = .first ∧ linkTarget (dbHash key) T = bucketOff db'.hash ∨
        ret = .notExist ∧ db'.preidx = (linkTarget (dbHash key) T + tdbOffSize : Nat)) ∧
      storeData accepts db.dat value = (db.dat.file.size, dat') ∧
      dbStore accepts db key value mode pad = (.ok .success, { db' with
        dat := dat'
        idx := storeKey accepts { db' with dat := dat' } ret key pad db.dat.file.size
        }.lock .unlocked) := by
  obtain ⟨ret, db', hs, h, hret⟩ := dbFindAndLock_absent hidx true ht hf
  have hd : storeData accepts db.dat value =
      (db.dat.file.size, (storeData accepts db.dat value).2) :=
    Prod.ext (storeData_fst accepts db.dat value) rfl
  have hlong : ¬tdbMaxRecordLen < value.length := Nat.not_lt_of_le hv
  generalize (storeData accepts db.dat value).2 = dat' at hd
  refine ⟨ret, db', dat', h, by rwa [h.hash], hd, ?_⟩
  rcases hmode with rfl | rfl <;> rcases hret with ⟨rfl, -⟩ | ⟨rfl, -⟩ <;>
    simp only [dbStore, hk.ok, hlong, hs, h.dat, hd, TDB.lock, reduceCtorEq, and_true,
      and_false, or_true, true_or, ite_true, ite_false]

variable (hw : Writable db) (hdat : tdbDataHeaderLen ≤ db.dat.file.size)

include hw hdat

/-- Storing an absent key appends both records and links the key record. -/
theorem dbStore_absent (hf : ∀ s ∈ T, s.name ≠ key.bytes)
    (hmode : mode = .insert ∨ mode = .store) :
    ∃ db', dbStore allAccepted db key value mode pad = (.ok .success, db') ∧
      Stored db db' (appendLinked db.idx.file (keyRecordBytes key pad db.dat.file.size 0)
        (linkTarget (dbHash key) T)) value := by
  obtain ⟨ret, db', dat', h, hret, hd, hst⟩ :=
    dbStore_absent_eq hidx hk hv pad ht allAccepted hf hmode
  obtain ⟨dat'', hd', hdw, happ⟩ := storeData_spec hw.dat hdat value
  obtain rfl : dat' = dat'' := (Prod.mk.inj (hd.symm.trans hd')).2
  have hkey := storeKey_file { db' with dat := dat' } (h.writable.trans hw.idx) ret
    (linkTarget (dbHash key) T) hret key pad db.dat.file.size
  rw [h.file] at hkey
  exact ⟨_, hst, hkey.1, hkey.2, happ, hdw⟩

/-- Replacing a present key appends the data record and misplaces the pointer to it. -/
theorem dbStore_present_replace {s : Stop}
    (hf : T.find? (fun x => x.name = key.bytes) = some s)
    (hmode : mode = .replace ∨ mode = .store) :
    ∃ db', dbStore allAccepted db key value mode pad = (.ok .success, db') ∧
      Stored db db' (overwriteData db.idx.file s.off db.dat.file.size) value := by
  obtain ⟨db', hs, h, _, hoff, _⟩ := dbFindAndLock_exist hidx true ht hf
  obtain ⟨dat', hd, hdw, happ⟩ := storeData_spec (h.sameFiles.writable hw).dat
    (by rw [h.dat]; exact hdat) value
  rw [h.dat] at hd happ
  have hlong : ¬tdbMaxRecordLen < value.length := Nat.not_lt_of_le hv
  have hseek : db'.idxoff + (tdbIntSize : Nat) + (tdbMaxKeyLen : Nat) = (s.off + 68 : Nat) := by
    rw [hoff]
    rfl
  have hwrite : (db'.idx.fseeko (s.off + 68 : Nat)).fwrite true
      (LittleEndian.ofInt 8 db.dat.file.size) =
        ⟨overwriteData db.idx.file s.off db.dat.file.size, s.off + 68 + 8, db'.idx.writable⟩ := by
    rw [FileStream.fseeko_natCast, FileStream.fwrite_true (by exact h.writable.trans hw.idx),
      LittleEndian.length_ofInt]
    simp only [h.file, overwriteData]
  refine ⟨{ db' with
      dat := dat'
      idx := ⟨overwriteData db.idx.file s.off db.dat.file.size, s.off + 68 + 8,
        db'.idx.writable⟩ }.lock .unlocked, ?_, rfl, h.writable.trans hw.idx, happ, hdw⟩
  rcases hmode with rfl | rfl <;>
    simp only [dbStore, hk.ok, hlong, hs, h.dat, hd, hseek, allAccepted, tdbOffSize, hwrite,
      reduceCtorEq, and_true, and_false, or_self, ite_false]

/-- Everything a store can do to the two files. -/
theorem dbStore_cases {r : Status} {db' : TDB}
    (h : dbStore allAccepted db key value mode pad = (.ok r, db')) :
    SameFiles db db' ∨
      (∀ s ∈ T, s.name ≠ key.bytes) ∧ (mode = .insert ∨ mode = .store) ∧
        Stored db db' (appendLinked db.idx.file (keyRecordBytes key pad db.dat.file.size 0)
          (linkTarget (dbHash key) T)) value ∨
      ∃ s, T.find? (fun x => x.name = key.bytes) = some s ∧ (mode = .replace ∨ mode = .store) ∧
        Stored db db' (overwriteData db.idx.file s.off db.dat.file.size) value := by
  have hresult {r' : Status} {db₁ : TDB}
      (h' : dbStore allAccepted db key value mode pad = (.ok r', db₁)) : db₁ = db' :=
    (Prod.mk.inj (h'.symm.trans h)).2
  cases hf : T.find? (fun x => x.name = key.bytes) with
  | none =>
    have habs : ∀ s ∈ T, s.name ≠ key.bytes := fun s hs => by
      simpa using List.find?_eq_none.mp hf s hs
    by_cases hmode : mode = .insert ∨ mode = .store
    · obtain ⟨db₁, hst, hs⟩ := dbStore_absent hidx hk hv pad ht hw hdat habs hmode
      obtain rfl := hresult hst
      exact .inr (.inl ⟨habs, hmode, hs⟩)
    · cases mode with
      | insert => simp at hmode
      | store => simp at hmode
      | replace =>
        obtain ⟨db₁, hst, hs⟩ := dbStore_absent_replace hidx hk hv pad ht allAccepted habs
        obtain rfl := hresult hst
        exact .inl hs
      | other =>
        obtain rfl := hresult (dbStore_other ..)
        exact .inl ⟨rfl, rfl, rfl, rfl⟩
  | some s =>
    by_cases hmode : mode = .replace ∨ mode = .store
    · obtain ⟨db₁, hst, hs⟩ := dbStore_present_replace hidx hk hv pad ht hw hdat hf hmode
      obtain rfl := hresult hst
      exact .inr (.inr ⟨s, rfl, hmode, hs⟩)
    · cases mode with
      | replace => simp at hmode
      | store => simp at hmode
      | insert =>
        obtain ⟨db₁, hst, hs⟩ := dbStore_present_insert hidx hk hv pad ht allAccepted hf
        obtain rfl := hresult hst
        exact .inl hs
      | other =>
        obtain rfl := hresult (dbStore_other ..)
        exact .inl ⟨rfl, rfl, rfl, rfl⟩

end store

/-! ## Fetches -/

/-- A key of no length the check lets pass is fetched as absent. -/
theorem dbFetch_refused (db : TDB) {key : CString} (hk : ¬KeyLength key) :
    dbFetch db key = (.ok none, db) := by
  rw [dbFetch, if_pos (not_keyLength hk)]

/-- A fetch whose search finds a record returns what the data file holds where it points. -/
theorem dbFetch_of_exist {db db' : TDB} {key : CString} (hk : KeyLength key)
    (hs : dbFindAndLock db key false = (.ok .exist, db')) (h : SameFiles db db')
    (hdat : db'.dat = db.dat) :
    ∃ db'', dbFetch db key = ((fetchData db.dat db'.datoff).1.map some, db'') ∧
      SameFiles db db'' := by
  obtain ⟨hfile, hwritable⟩ := fetchData_file db.dat db'.datoff
  simp only [dbFetch, hk.ok, hs, hdat, ite_false]
  generalize fetchData db.dat db'.datoff = r at hfile hwritable ⊢
  obtain ⟨r, dat'⟩ := r
  cases r with
  | error fault => exact ⟨_, rfl, h.idx, h.idxWritable, hfile, hwritable⟩
  | ok value => exact ⟨_, rfl, h.idx, h.idxWritable, hfile, hwritable⟩

section fetch

variable {db : TDB} (hidx : tableEnd ≤ db.idx.file.size) {key : CString} (hk : KeyLength key)
  {T : List Stop} (ht : Trail db.idx.file (bucketPtr db.idx.file (dbHash key)) T)

include hidx hk ht

/-- Fetching an absent key. -/
theorem dbFetch_absent (hf : ∀ s ∈ T, s.name ≠ key.bytes) :
    ∃ db', dbFetch db key = (.ok none, db') ∧ SameFiles db db' := by
  obtain ⟨ret, db', hs, h, hret⟩ := dbFindAndLock_absent hidx false ht hf
  refine ⟨db', ?_, h.sameFiles⟩
  rcases hret with ⟨rfl, -⟩ | ⟨rfl, -⟩ <;> simp only [dbFetch, hk.ok, hs, ite_false]

/-- Fetching a present key. -/
theorem dbFetch_present {s : Stop} (hf : T.find? (fun x => x.name = key.bytes) = some s) :
    ∃ db', dbFetch db key =
        ((fetchData db.dat (dataPtr db.idx.file s.off)).1.map some, db') ∧ SameFiles db db' := by
  obtain ⟨db', hs, h, _, _, _, hoff⟩ := dbFindAndLock_exist hidx false ht hf
  rw [← hoff]
  exact dbFetch_of_exist hk hs h.sameFiles h.dat

/-- A fetch changes no file, whatever the data file holds. -/
theorem dbFetch_sameFiles : SameFiles db (dbFetch db key).2 := by
  cases hf : T.find? (fun x => x.name = key.bytes) with
  | none =>
    obtain ⟨db', hfetch, hs⟩ := dbFetch_absent hidx hk ht fun s hs => by
      simpa using List.find?_eq_none.mp hf s hs
    rwa [hfetch]
  | some s =>
    obtain ⟨db', hfetch, hs⟩ := dbFetch_present hidx hk ht hf
    rwa [hfetch]

end fetch

/-! ## Deletes -/

/-- Flagging a whole record, and what is then read behind its key. -/
theorem markDeleted_eq {s : FileStream} (hw : s.writable = true) {p : Nat}
    (hp : p + 88 ≤ s.file.size) :
    markDeleted s p = (s.file.read (p + 72) 4,
      { s with file := s.file.write p (LittleEndian.ofInt 4 1), pos := p + 72 + 4 }) := by
  have hlen := LittleEndian.length_ofInt 4 1
  have hskip : ((p + 4 : Nat) : Int) + (tdbMaxKeyLen + tdbPrtSize : Nat) = (p + 72 : Nat) := by
    simp only [tdbMaxKeyLen, tdbPrtSize]
    omega
  unfold markDeleted
  rw [FileStream.fseeko_natCast, tdbIntSize, FileStream.fwrite_true (by exact hw), hlen]
  simp only [FileStream.fseekCur, hskip, FileStream.fseeko_natCast]
  rw [FileStream.fread_of_le]
  · simp only [tdbPrtSize]
    rw [ByteFile.read_write_of_disjoint _ (.inr (by rw [hlen]; omega))]
  · have hs := s.file.size_le_size_write p (LittleEndian.ofInt 4 1)
    simp only [tdbPrtSize]
    omega

/-- A key of no length the check lets pass is not deleted. -/
theorem dbDelete_refused (db : TDB) {key : CString} (hk : ¬KeyLength key) :
    dbDelete db key = (.ok .error, db) := by
  rw [dbDelete, if_pos (not_keyLength hk)]

section delete

variable {db : TDB} (hidx : tableEnd ≤ db.idx.file.size) {key : CString} (hk : KeyLength key)
  {T : List Stop} (ht : Trail db.idx.file (bucketPtr db.idx.file (dbHash key)) T)

include hidx hk ht

/-- Deleting an absent key. -/
theorem dbDelete_absent (hf : ∀ s ∈ T, s.name ≠ key.bytes) :
    ∃ db', dbDelete db key = (.ok .ok, db') ∧ SameFiles db db' := by
  obtain ⟨ret, db', hs, h, hret⟩ := dbFindAndLock_absent hidx true ht hf
  refine ⟨db', ?_, h.sameFiles⟩
  rcases hret with ⟨rfl, -⟩ | ⟨rfl, -⟩ <;> simp only [dbDelete, hk.ok, hs, ite_false]

/-- Deleting a present key. -/
theorem dbDelete_present (hw : Writable db) {s : Stop}
    (hf : T.find? (fun x => x.name = key.bytes) = some s) :
    ∃ db', dbDelete db key = (.ok .success, db') ∧
      db'.idx.file = unlinkFile db.idx.file s.off
        (unlinkTarget db.idx.file (dbHash key) s.off) ∧
      db'.dat.file = db.dat.file ∧ Writable db' := by
  obtain ⟨db', hs, h, hhead, hoff, hpre, _⟩ := dbFindAndLock_exist hidx true ht hf
  have hin := ht.stops s (List.mem_of_find?_eq_some hf)
  have hwhole := hin.whole
  simp only [keyRecordSize] at hwhole
  have hiw := h.writable.trans hw.idx
  have hmark := markDeleted_eq hiw (p := s.off) (by rw [h.file]; exact hwhole)
  have hbytes : LittleEndian.ofInt 4 (LittleEndian.toInt (db'.idx.file.read (s.off + 72) 4)) =
      db'.idx.file.read (s.off + 72) 4 := by
    have hb := LittleEndian.ofInt_toInt (db'.idx.file.read (s.off + 72) 4)
    rwa [ByteFile.length_read] at hb
  have hseek : db'.preidx + (tdbIntSize : Nat) + (tdbMaxKeyLen : Nat) + (4 : Nat) =
      (s.off + 160 : Nat) := by
    rw [hpre]
    simp only [keyRecordSize, tdbIntSize, tdbMaxKeyLen]
    omega
  have hdat := (h.sameFiles.writable hw).dat
  simp only [dbDelete, hk.ok, hs, hoff, hmark, ite_false, ByteFile.length_read, tdbPrtSize,
    ne_eq, not_true_eq_false, hbytes, hhead]
  refine ⟨_, rfl, ?_, ?_, ?_⟩
  · simp only [TDB.lock, unlinkTarget, unlinkFile]
    split
    · rw [FileStream.fseeko_natCast, FileStream.fwrite_true (by exact hiw)]
      simp only [h.file, h.hash]
    · rw [hseek, FileStream.fseeko_natCast, FileStream.fwrite_true (by exact hiw)]
      simp only [h.file]
  · simp only [TDB.lock, h.dat]
  · refine ⟨?_, hdat⟩
    simp only [TDB.lock]
    split <;> simpa using hiw

end delete

end CachelibArchive.Tmdb
