import CachelibArchive.Tmdb.Index

/-!
# Records of the data file

A store appends one record and, unless it counts as the first, overwrites the
last eight bytes of the file, which are the next pointer of the record before.
No fetch reads those bytes, so records stay readable where they are.
-/

namespace CachelibArchive.Tmdb

/-- A record with this value starts at `d`: what a fetch reads of it. -/
structure DataAt (f : ByteFile) (d : Nat) (v : CString) : Prop where
  whole : d + v.length + 16 ≤ f.size
  len : f.read (d + 4) 4 = LittleEndian.ofInt 4 v.length
  data : f.read (d + 8) v.length = v.bytes

/-- An append that stopped anywhere: only the last eight bytes of the old file may differ. -/
structure Torn (f g : ByteFile) : Prop where
  size : f.size ≤ g.size
  keep : ∀ p n, p + n + 8 ≤ f.size → g.read p n = f.read p n

/-- One record was appended; only the last eight bytes before it may differ. -/
structure Appended (f g : ByteFile) (v : CString) : Prop where
  size : g.size = f.size + v.length + 16
  keep : ∀ p n, p + n + 8 ≤ f.size → g.read p n = f.read p n
  record : DataAt g f.size v

theorem Appended.torn {f g : ByteFile} {v : CString} (h : Appended f g v) : Torn f g := by
  refine ⟨?_, h.keep⟩
  rw [h.size, Nat.add_assoc]
  exact Nat.le_add_right ..

/-- Records survive an append, also one that is cut off: the bytes it overwrites are the
next pointer of a record. -/
theorem DataAt.torn {f g : ByteFile} {d : Nat} {v : CString} (h : DataAt f d v)
    (ht : Torn f g) : DataAt g d v := by
  have hw := h.whole
  refine ⟨hw.trans ht.size, ?_, ?_⟩
  · rw [ht.keep _ _ (by omega), h.len]
  · rw [ht.keep _ _ (by omega), h.data]

/-- The bytes of a data record. -/
def dataRecordBytes (v : CString) : List UInt8 :=
  LittleEndian.ofInt 4 0 ++ LittleEndian.ofInt 4 v.length ++ v.bytes ++ LittleEndian.ofInt 8 0

theorem length_dataRecordBytes (v : CString) : (dataRecordBytes v).length = v.length + 16 := by
  simp only [dataRecordBytes, List.length_append, LittleEndian.length_ofInt, CString.length]
  omega

/-- What the accepted ones of the four writes of a record put into the file. -/
def pieces (accepts : WriteSite → Bool) (v : CString) : List UInt8 :=
  (if accepts .dataFlag then LittleEndian.ofInt 4 0 else []) ++
    (if accepts .dataLen then LittleEndian.ofInt 4 v.length else []) ++
    (if accepts .dataBytes then v.bytes else []) ++
    (if accepts .dataNext then LittleEndian.ofInt 8 0 else [])

theorem pieces_allAccepted (v : CString) : pieces allAccepted v = dataRecordBytes v := rfl

/-- The four writes of a record put its accepted pieces at the position of the stream. -/
theorem writeDataRecord_eq {s : FileStream} (hw : s.writable = true) (accepts : WriteSite → Bool)
    (v : CString) :
    writeDataRecord accepts s ⟨0, v.length, v, 0⟩ =
      { s with
        file := s.file.write s.pos (pieces accepts v)
        pos := s.pos + (pieces accepts v).length } := by
  simp only [writeDataRecord, tdbIntSize, tdbOffSize]
  rw [FileStream.fwrite_eq_true hw, FileStream.fwrite_fwrite hw, FileStream.fwrite_fwrite hw,
    FileStream.fwrite_fwrite hw, ← pieces, FileStream.fwrite_true hw]

/-- Appending the bytes of a record to a file that agrees with `f` up to its last eight bytes. -/
theorem appended_write {f g : ByteFile} (hs : g.size = f.size)
    (hk : ∀ p n, p + n + 8 ≤ f.size → g.read p n = f.read p n) (v : CString) :
    Appended f (g.write f.size (dataRecordBytes v)) v := by
  have hlen := length_dataRecordBytes v
  have hsize : (g.write f.size (dataRecordBytes v)).size = f.size + v.length + 16 := by
    rw [ByteFile.size_write _ _ (by intro h; simp [h] at hlen), hlen, hs]
    omega
  refine ⟨hsize, ?_, ?_, ?_, ?_⟩
  · intro p n hp
    rw [ByteFile.read_write_of_disjoint _ (.inl (by omega)), hk p n hp]
  · rw [hsize]
  · have h := g.read_write_slice f.size (LittleEndian.ofInt 4 0) (LittleEndian.ofInt 4 v.length)
      (v.bytes ++ LittleEndian.ofInt 8 0)
    rw [LittleEndian.length_ofInt, LittleEndian.length_ofInt, ← List.append_assoc] at h
    exact h
  · have h := g.read_write_slice f.size (LittleEndian.ofInt 4 0 ++ LittleEndian.ofInt 4 v.length)
      v.bytes (LittleEndian.ofInt 8 0)
    rw [List.length_append, LittleEndian.length_ofInt, LittleEndian.length_ofInt] at h
    exact h

theorem fseekEnd_zero (s : FileStream) : s.fseekEnd 0 = { s with pos := s.file.size } := by
  rw [FileStream.fseekEnd, Int.add_zero, FileStream.fseeko_natCast]

/-- Seeking in front of the last next field. -/
theorem fseekEnd_back {s : FileStream} (h : tdbOffSize ≤ s.file.size) :
    s.fseekEnd (-tdbOffSize : Int) = { s with pos := s.file.size - 8 } := by
  have hcast : (s.file.size : Int) + -(tdbOffSize : Nat) = (s.file.size - 8 : Nat) := by
    simp only [tdbOffSize] at h ⊢
    omega
  rw [FileStream.fseekEnd, hcast, FileStream.fseeko_natCast]

/-- The file a record goes into, and the offset it goes to: the last next field is overwritten
unless the record counts as the first, and where that write fails the stream stays in front
of the field. -/
def patched (accepts : WriteSite → Bool) (f : ByteFile) : ByteFile × Nat :=
  if f.size < tdbDataHeaderLen + dataRecordSize then (f, f.size)
  else if accepts .patchNext then
    (f.write (f.size - tdbOffSize) (LittleEndian.ofInt tdbOffSize f.size), f.size)
  else (f, f.size - tdbOffSize)

/-- The data half of a store writes the accepted pieces of its record. -/
theorem storeData_eq {dat : FileStream} (hw : dat.writable = true) (accepts : WriteSite → Bool)
    (v : CString) :
    (storeData accepts dat v).2.file =
        (patched accepts dat.file).1.write (patched accepts dat.file).2 (pieces accepts v) ∧
      (storeData accepts dat v).2.writable = true := by
  unfold storeData patched
  simp only [fseekEnd_zero]
  by_cases hfirst : dat.file.size < tdbDataHeaderLen + dataRecordSize
  · rw [if_pos hfirst, if_pos hfirst,
      writeDataRecord_eq (s := { dat with pos := dat.file.size }) hw]
    exact ⟨rfl, hw⟩
  · have hsize : tdbOffSize ≤ dat.file.size := by
      simp only [tdbDataHeaderLen, tdbOffSize] at hfirst ⊢
      omega
    rw [if_neg hfirst, if_neg hfirst, fseekEnd_back (s := { dat with pos := dat.file.size }) hsize]
    cases accepts .patchNext with
    | false =>
      rw [show FileStream.fwrite { dat with pos := dat.file.size - 8 } false _ =
        { dat with pos := dat.file.size - 8 } by simp [FileStream.fwrite]]
      simp only
      rw [writeDataRecord_eq (s := { dat with pos := dat.file.size - 8 }) hw]
      exact ⟨rfl, hw⟩
    | true =>
      have hpos : dat.file.size - 8 + 8 = dat.file.size := Nat.sub_add_cancel hsize
      rw [FileStream.fwrite_true (s := { dat with pos := dat.file.size - 8 }) hw]
      simp only [LittleEndian.length_ofInt, tdbOffSize, hpos]
      rw [writeDataRecord_eq (s := { dat with
        file := dat.file.write (dat.file.size - 8) (LittleEndian.ofInt 8 dat.file.size)
        pos := dat.file.size }) hw]
      exact ⟨rfl, hw⟩

/-- What the data half of a store makes of the file when every write succeeds. -/
theorem storeData_file {dat : FileStream} (hw : dat.writable = true) (v : CString) :
    (storeData allAccepted dat v).2.file =
        (if dat.file.size < tdbDataHeaderLen + dataRecordSize then dat.file
          else dat.file.write (dat.file.size - 8) (LittleEndian.ofInt 8 dat.file.size)).write
            dat.file.size (dataRecordBytes v) ∧
      (storeData allAccepted dat v).2.writable = true := by
  obtain ⟨hfile, hwritable⟩ := storeData_eq hw allAccepted v
  refine ⟨?_, hwritable⟩
  rw [hfile, pieces_allAccepted, patched, if_pos (show allAccepted .patchNext = true from rfl)]
  split_ifs <;> rfl

/-- A store puts its record at the old end of the file, whichever writes succeed. -/
theorem storeData_fst (accepts : WriteSite → Bool) (dat : FileStream) (v : CString) :
    (storeData accepts dat v).1 = dat.file.size := by
  unfold storeData
  simp only [fseekEnd_zero]
  split_ifs <;> rfl

/-- The data half of a store appends a record at the old end of the file. -/
theorem storeData_spec {dat : FileStream} (hw : dat.writable = true)
    (hsize : tdbDataHeaderLen ≤ dat.file.size) (v : CString) :
    ∃ dat', storeData allAccepted dat v = (dat.file.size, dat') ∧ dat'.writable = true ∧
      Appended dat.file dat'.file v := by
  obtain ⟨hfile, hwritable⟩ := storeData_file hw v
  refine ⟨_, Prod.ext (storeData_fst allAccepted dat v) rfl, hwritable, ?_⟩
  have hp8 := LittleEndian.length_ofInt 8 (dat.file.size : Int)
  simp only [tdbDataHeaderLen] at hsize
  rw [hfile]
  split_ifs with hfirst
  · exact appended_write rfl (fun _ _ _ => rfl) v
  · refine appended_write (ByteFile.size_write_of_le _ (by rw [hp8]; omega)) ?_ v
    intro p n hp
    exact ByteFile.read_write_of_disjoint _ (.inl (by omega))

/-- A stream that has left `f` alone but for its last eight bytes, and writes behind it next. -/
structure Behind (f : ByteFile) (s : FileStream) : Prop where
  pos : f.size ≤ s.pos + 8
  torn : Torn f s.file

theorem Behind.fwrite {f : ByteFile} {s : FileStream} (h : Behind f s) (accepted : Bool)
    (bs : List UInt8) : Behind f (s.fwrite accepted bs) := by
  have hpos := h.pos
  unfold FileStream.fwrite
  split
  · refine ⟨?_, h.torn.size.trans (s.file.size_le_size_write ..), ?_⟩
    · dsimp only
      omega
    · intro p n hp
      rw [ByteFile.read_write_of_disjoint _ (.inl (by omega)), h.torn.keep p n hp]
  · exact h

theorem Behind.writeDataRecord {f : ByteFile} {s : FileStream} (h : Behind f s)
    (accepts : WriteSite → Bool) (r : DataRecord) : Behind f (writeDataRecord accepts s r) :=
  (((h.fwrite _ _).fwrite _ _).fwrite _ _).fwrite _ _

/-- Whichever writes succeed, the data half of a store tears at most the last eight bytes. -/
theorem storeData_torn (accepts : WriteSite → Bool) (dat : FileStream) (v : CString) :
    Torn dat.file (storeData accepts dat v).2.file := by
  have hrefl : Torn dat.file dat.file := ⟨le_rfl, fun _ _ _ => rfl⟩
  unfold storeData
  simp only [fseekEnd_zero]
  split_ifs with hfirst
  · have hstart : Behind dat.file { dat with pos := dat.file.size } :=
      ⟨Nat.le_add_right dat.file.size 8, hrefl⟩
    exact (hstart.writeDataRecord accepts _).torn
  · have hsize : tdbOffSize ≤ dat.file.size := by
      simp only [tdbDataHeaderLen, tdbOffSize] at hfirst ⊢
      omega
    rw [fseekEnd_back (s := { dat with pos := dat.file.size }) hsize]
    have hstart : Behind dat.file { dat with pos := dat.file.size - 8 } :=
      ⟨by dsimp only; omega, hrefl⟩
    exact ((hstart.fwrite _ _).writeDataRecord accepts _).torn

/-- The data half of a fetch only reads. -/
theorem fetchData_file (dat : FileStream) (d : Int) :
    (fetchData dat d).2.file = dat.file ∧ (fetchData dat d).2.writable = dat.writable := by
  unfold fetchData
  simp only
  split_ifs <;> simp

/-- A length field read back. -/
theorem lenField (v : CString) (hv : v.length < tdbMaxRecordLen + 1) :
    (LittleEndian.toInt (LittleEndian.ofInt 4 v.length) % (2 ^ 64 : Nat)).toNat = v.length := by
  simp only [tdbMaxRecordLen] at hv
  rw [LittleEndian.toInt_ofInt_natCast (by omega)]
  omega

/-- The data half of a fetch once the length has been read. -/
theorem fetchData_eq {dat : FileStream} {d : Nat} (h : d + 8 ≤ dat.file.size) :
    fetchData dat d =
      let len := (LittleEndian.toInt (dat.file.read (d + 4) 4) % (2 ^ 64 : Nat)).toNat
      let (data, dat') := ({ dat with pos := d + 8 } : FileStream).fread len
      if tdbMaxRecordLen < data.length then (.error .overrun, dat')
      else if data.length ≠ len then (.error .exit, dat')
      else if data.length = tdbMaxRecordLen ∧ (0 : UInt8) ∉ data then (.error .overrun, dat')
      else (.ok (CString.ofBytes data), dat') := by
  have hread : (dat.fseeko (d + tdbIntSize)).fread tdbIntSize =
      (dat.file.read (d + 4) 4, { dat with pos := d + 8 }) := by
    rw [show (d : Int) + (tdbIntSize : Nat) = (d + 4 : Nat) from rfl, FileStream.fseeko_natCast,
      FileStream.fread_of_le (by simp only [tdbIntSize]; omega), tdbIntSize]
  unfold fetchData
  simp only [hread]
  simp only [ByteFile.length_read, tdbIntSize, ne_eq, not_true_eq_false, ite_false]

/-- A fetch that finds no whole length ends the process. -/
theorem fetchData_exit {dat : FileStream} {d : Nat} (h : ¬d + 8 ≤ dat.file.size) :
    (fetchData dat d).1 = .error .exit := by
  have hread : ((dat.fseeko (d + tdbIntSize)).fread tdbIntSize).1.length ≠ tdbIntSize := by
    rw [Ne, FileStream.length_fread_eq_iff (by decide),
      show (d : Int) + (tdbIntSize : Nat) = (d + 4 : Nat) from rfl, FileStream.fseeko_natCast]
    simpa only [tdbIntSize, Nat.add_assoc] using h
  unfold fetchData
  simp only [hread, ne_eq, not_false_eq_true, ite_true]

/-- Length and data in place are all a fetch needs, if the value leaves room for a terminator. -/
theorem fetchData_of_reads {dat : FileStream} {d : Nat} {v : CString}
    (hsize : d + 8 + v.length ≤ dat.file.size)
    (hlen : dat.file.read (d + 4) 4 = LittleEndian.ofInt 4 v.length)
    (hdata : dat.file.read (d + 8) v.length = v.bytes) (hv : v.length < tdbMaxRecordLen) :
    (fetchData dat d).1 = .ok v := by
  have hfread : ({ dat with pos := d + 8 } : FileStream).fread v.length =
      (v.bytes, { dat with pos := d + 8 + v.length }) := by
    rw [FileStream.fread_of_le (by simpa using hsize), hdata]
  have hbytes : v.bytes.length = v.length := rfl
  rw [fetchData_eq (by omega), hlen, lenField v (Nat.lt_succ_of_lt hv)]
  simp only [hfread, hbytes, Nat.not_lt_of_lt hv, Nat.ne_of_lt hv, ne_eq, not_true_eq_false,
    false_and, ite_false, CString.ofBytes_bytes]

/-- A fetch that returns has read its value behind the length. -/
theorem fetchData_ok {dat : FileStream} {d : Nat} {w : CString}
    (h : (fetchData dat d).1 = .ok w) :
    d + 8 + w.length ≤ dat.file.size ∧ w.length < tdbMaxRecordLen ∧
      dat.file.read (d + 8) w.length = w.bytes := by
  by_cases hsize : d + 8 ≤ dat.file.size
  · rw [fetchData_eq hsize] at h
    generalize (LittleEndian.toInt (dat.file.read (d + 4) 4) % (2 ^ 64 : Nat)).toNat = len at h
    simp only [FileStream.fread, ByteFile.length_read] at h
    split_ifs at h with hlong hshort hfull
    rw [Except.ok.injEq] at h
    -- everything asked for was delivered, and the value is what stands before a terminator
    obtain ⟨m, hm⟩ : ∃ m, min len (dat.file.size - (d + 8)) = m := ⟨_, rfl⟩
    rw [hm] at h hlong hshort hfull
    have hprefix : w.bytes <+: dat.file.read (d + 8) m := by
      rw [← h]
      exact List.takeWhile_prefix _
    have hle : w.length ≤ m := by
      have hlen := hprefix.length_le
      rwa [ByteFile.length_read] at hlen
    refine ⟨by omega, ?_, ?_⟩
    · by_contra hmax
      have heq : w.bytes = dat.file.read (d + 8) m := by
        apply hprefix.eq_of_length
        rw [ByteFile.length_read]
        show w.length = m
        omega
      refine hfull ⟨by omega, ?_⟩
      rw [← heq]
      exact w.nul_free
    · exact (dat.file.take_read hle).symm.trans (List.prefix_iff_eq_take.mp hprefix).symm
  · rw [fetchData_exit hsize] at h
    cases h

/-- A value as long as the buffer leaves no room for its terminator. -/
theorem fetchData_full {dat : FileStream} {d : Nat} {v : CString} (h : DataAt dat.file d v)
    (hv : v.length = tdbMaxRecordLen) : (fetchData dat d).1 = .error .overrun := by
  have hw := h.whole
  have hfread : ({ dat with pos := d + 8 } : FileStream).fread v.length =
      (v.bytes, { dat with pos := d + 8 + v.length }) := by
    rw [FileStream.fread_of_le (by show d + 8 + v.length ≤ dat.file.size; omega), h.data]
  have hbytes : v.bytes.length = v.length := rfl
  rw [fetchData_eq (by omega), h.len, lenField v (Nat.lt_succ_of_le hv.le)]
  simp only [hfread]
  simp only [hbytes, hv, lt_self_iff_false, ne_eq, not_true_eq_false, v.nul_free,
    not_false_eq_true, and_self, ite_true, ite_false]

/-- The data half of a fetch returns the value of the record it is pointed at. -/
theorem fetchData_spec {dat : FileStream} {d : Nat} {v : CString} (h : DataAt dat.file d v)
    (hv : v.length < tdbMaxRecordLen) :
    ∃ dat', fetchData dat d = (.ok v, dat') ∧ dat'.file = dat.file ∧
      dat'.writable = dat.writable := by
  have hw := h.whole
  obtain ⟨hfile, hwritable⟩ := fetchData_file dat d
  exact ⟨_, Prod.ext (fetchData_of_reads (by omega) h.len h.data hv) rfl, hfile, hwritable⟩

end CachelibArchive.Tmdb
