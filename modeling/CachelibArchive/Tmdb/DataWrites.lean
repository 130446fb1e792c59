import CachelibArchive.Tmdb.Data

/-!
# Data records whose writes fail

No write of an insert looks at the result of another. In the data file a field
that is missing shifts what is written behind it, and a patch that fails shifts
the whole record. What a fetch of the new value depends on are all the writes in
front of its next field, or for the empty value any eight zero bytes.
-/

namespace CachelibArchive.Tmdb

/-- The record begins at the old end of the file: no patch is made, or the patch is written. -/
def InPlace (accepts : WriteSite → Bool) (size : Nat) : Prop :=
  size < tdbDataHeaderLen + dataRecordSize ∨ accepts .patchNext = true

instance (accepts : WriteSite → Bool) (size : Nat) : Decidable (InPlace accepts size) :=
  inferInstanceAs (Decidable (_ ∨ _))

/-- The data writes that a fetch of the value depends on: all in front of the next field, or
for the empty value eight bytes of any of them behind the old end of the file. -/
def DataReaches (accepts : WriteSite → Bool) (size : Nat) (v : CString) : Prop :=
  if v.bytes = [] then
    if InPlace accepts size then
      accepts .dataFlag = true ∧ accepts .dataLen = true ∨ accepts .dataNext = true
    else accepts .dataFlag = true ∧ accepts .dataLen = true ∧ accepts .dataNext = true
  else InPlace accepts size ∧ accepts .dataFlag = true ∧ accepts .dataLen = true ∧
    accepts .dataBytes = true

/-- Where the record goes: a patch that fails leaves the stream in front of the field. -/
def recordOff (accepts : WriteSite → Bool) (size : Nat) : Nat :=
  if InPlace accepts size then size else size - tdbOffSize

/-- A record starts inside the file or at its end. -/
theorem recordOff_le (accepts : WriteSite → Bool) (size : Nat) : recordOff accepts size ≤ size := by
  unfold recordOff
  split_ifs
  · exact le_rfl
  · exact Nat.sub_le ..

/-- The patched file has its old size, and the record goes to `recordOff`. -/
theorem patched_spec (accepts : WriteSite → Bool) {f : ByteFile} (hf : tdbDataHeaderLen ≤ f.size) :
    (patched accepts f).1.size = f.size ∧ (patched accepts f).2 = recordOff accepts f.size := by
  simp only [tdbDataHeaderLen] at hf
  unfold patched recordOff
  by_cases hin : InPlace accepts f.size
  · rw [if_pos hin]
    split_ifs with hfirst hpatch
    · exact ⟨rfl, rfl⟩
    · refine ⟨ByteFile.size_write_of_le _ ?_, rfl⟩
      rw [LittleEndian.length_ofInt]
      simp only [tdbOffSize]
      omega
    · exact absurd hin (not_or.mpr ⟨hfirst, hpatch⟩)
  · obtain ⟨hfirst, hpatch⟩ := not_or.mp hin
    rw [if_neg hin, if_neg hfirst, if_neg hpatch]
    exact ⟨rfl, rfl⟩

section data

variable (accepts : WriteSite → Bool) (v : CString)

/-- The bytes of the pieces written. -/
theorem length_pieces : (pieces accepts v).length =
    (if accepts .dataFlag then 4 else 0) + (if accepts .dataLen then 4 else 0) +
      (if accepts .dataBytes then v.length else 0) + (if accepts .dataNext then 8 else 0) := by
  simp only [pieces, List.length_append, apply_ite List.length, LittleEndian.length_ofInt,
    List.length_nil, CString.length]

/-- Which writes of an empty record fill eight bytes, and which fill sixteen. -/
theorem eight_le_iff : ∀ flag len next : Bool,
    8 ≤ (if flag then 4 else 0) + (if len then 4 else 0) + (if next then 8 else 0) ↔
      flag = true ∧ len = true ∨ next = true := by decide

theorem sixteen_le_iff : ∀ flag len next : Bool,
    16 ≤ (if flag then 4 else 0) + (if len then 4 else 0) + (if next then 8 else 0) ↔
      flag = true ∧ len = true ∧ next = true := by decide

/-- The data of a record ends early unless both fields in front of it are written. -/
theorem dataEnd_le (flag len bytes : Bool) (n : Nat) :
    (if flag then 4 else 0) + (if len then 4 else 0) + (if bytes then n else 0) ≤ 8 + n ∧
      (¬(flag = true ∧ len = true ∧ bytes = true) → 0 < n →
        (if flag then 4 else 0) + (if len then 4 else 0) + (if bytes then n else 0) ≤ 7 + n) := by
  cases flag <;> cases len <;> cases bytes <;> simp <;> omega

/-- Behind the data there are only zeros. -/
theorem pieces_getElem?_of_le {i : Nat}
    (hi : (if accepts .dataFlag then 4 else 0) + (if accepts .dataLen then 4 else 0) +
      (if accepts .dataBytes then v.length else 0) ≤ i) :
    ((pieces accepts v)[i]?).getD 0 = 0 := by
  rw [pieces, List.getElem?_append_right]
  · cases accepts .dataNext with
    | true =>
      rw [if_pos rfl, LittleEndian.ofInt_zero, List.getElem?_replicate]
      split_ifs <;> rfl
    | false => rfl
  · simpa only [List.length_append, apply_ite List.length, LittleEndian.length_ofInt,
      List.length_nil, CString.length] using hi

/-- Without data there are only zeros. -/
theorem pieces_getElem?_of_nil (hv : v.bytes = []) (i : Nat) :
    ((pieces accepts v)[i]?).getD 0 = 0 := by
  have hzero : ∀ b ∈ pieces accepts v, b = 0 := by
    have hlen : v.length = 0 := by rw [CString.length, hv, List.length_nil]
    simp only [pieces, hv, hlen, Int.natCast_zero, LittleEndian.ofInt_zero, List.mem_append]
    intro b hb
    rcases hb with ((hb | hb) | hb) | hb <;> split_ifs at hb <;>
      first
      | exact List.eq_of_mem_replicate hb
      | cases hb
  cases hb : (pieces accepts v)[i]? with
  | none => rfl
  | some b => exact hzero b (List.mem_of_getElem? hb)

end data

section fetch

variable {dat : FileStream} (hw : dat.writable = true) (hsize : tdbDataHeaderLen ≤ dat.file.size)
  (accepts : WriteSite → Bool) (v : CString)

include hw hsize

/-- Bytes behind the old end of the data file. -/
theorem storeData_byte {i : Nat} (hi : dat.file.size ≤ i) :
    (storeData accepts dat v).2.file.byte i =
      ((pieces accepts v)[i - recordOff accepts dat.file.size]?).getD 0 := by
  obtain ⟨hbase, hpos⟩ := patched_spec accepts hsize
  rw [(storeData_eq hw accepts v).1, ByteFile.byte_write_of_size_le, hpos]
  · rw [hpos]
    exact (recordOff_le accepts _).trans hi
  · rwa [hbase]

/-- The data file after the writes that got through. -/
theorem storeData_size : (storeData accepts dat v).2.file.size =
    max dat.file.size (recordOff accepts dat.file.size + (pieces accepts v).length) := by
  obtain ⟨hbase, hpos⟩ := patched_spec accepts hsize
  rw [(storeData_eq hw accepts v).1]
  by_cases hp : pieces accepts v = []
  · rw [hp, ByteFile.write_nil, hbase, List.length_nil, Nat.add_zero,
      max_eq_left (recordOff_le accepts _)]
  · rw [ByteFile.size_write _ _ hp, hbase, hpos]

/-- A value that a fetch returns is where it belongs. -/
theorem dataReaches_of_fetchData
    (h : (fetchData (storeData accepts dat v).2 dat.file.size).1 = .ok v) :
    DataReaches accepts dat.file.size v := by
  obtain ⟨hend, _, hread⟩ := fetchData_ok h
  rw [storeData_size hw hsize, length_pieces] at hend
  simp only [tdbDataHeaderLen] at hsize
  unfold DataReaches
  by_cases hv : v.bytes = []
  · -- eight bytes behind the old end have been written
    have hlen : v.length = 0 := by rw [CString.length, hv, List.length_nil]
    rw [if_pos hv]
    simp only [hlen, ite_self, Nat.add_zero] at hend
    unfold recordOff at hend
    by_cases hin : InPlace accepts dat.file.size
    · rw [if_pos hin] at hend ⊢
      exact (eight_le_iff ..).mp (by omega)
    · rw [if_neg hin] at hend ⊢
      simp only [tdbOffSize] at hend
      exact (sixteen_le_iff ..).mp (by omega)
  · rw [if_neg hv]
    have hpos : 0 < v.length := List.length_pos_of_ne_nil hv
    -- the last character is not zero, so it is not behind the data
    have hget : v.bytes[v.length - 1]? = some (v.bytes.getLast hv) := by
      rw [← List.getLast?_eq_getLast_of_ne_nil hv, List.getLast?_eq_getElem?]
      rfl
    have hlast :
        (storeData accepts dat v).2.file.byte (dat.file.size + 8 + (v.length - 1)) ≠ 0 := by
      rw [ByteFile.byte_of_read hread hget]
      intro hz
      exact v.nul_free (hz ▸ List.getLast_mem hv)
    rw [storeData_byte hw (by simpa using hsize) accepts v (by omega)] at hlast
    have hinside := fun hi => hlast (pieces_getElem?_of_le accepts v hi)
    obtain ⟨hle, hshort⟩ := dataEnd_le (accepts .dataFlag) (accepts .dataLen) (accepts .dataBytes)
      v.length
    unfold recordOff at hinside
    by_cases hin : InPlace accepts dat.file.size
    · rw [if_pos hin] at hinside
      refine ⟨hin, ?_⟩
      by_contra hnot
      exact hinside ((hshort hnot hpos).trans (by omega))
    · rw [if_neg hin] at hinside
      simp only [tdbOffSize] at hinside
      exact absurd (hle.trans (by omega)) hinside

/-- Where the data writes that matter succeed, the value is fetched. -/
theorem fetchData_of_dataReaches (hv : v.length < tdbMaxRecordLen)
    (h : DataReaches accepts dat.file.size v) :
    (fetchData (storeData accepts dat v).2 dat.file.size).1 = .ok v := by
  have hend := storeData_size hw hsize accepts v
  rw [length_pieces] at hend
  unfold DataReaches at h
  by_cases hnil : v.bytes = []
  · have hlen : v.length = 0 := by rw [CString.length, hnil, List.length_nil]
    have hzero : (storeData accepts dat v).2.file.read (dat.file.size + 4) 4 =
        List.replicate 4 0 := by
      apply ByteFile.read_of_zero
      intro i hi _
      rw [storeData_byte hw hsize accepts v (by omega), pieces_getElem?_of_nil accepts v hnil]
    refine fetchData_of_reads ?_ ?_ ?_ hv
    · rw [if_pos hnil] at h
      simp only [hlen, ite_self, Nat.add_zero] at hend
      rw [hlen, hend]
      unfold recordOff
      simp only [tdbDataHeaderLen] at hsize
      by_cases hin : InPlace accepts dat.file.size
      · rw [if_pos hin] at h ⊢
        have height := (eight_le_iff ..).mpr h
        omega
      · rw [if_neg hin] at h ⊢
        have hsixteen := (sixteen_le_iff ..).mpr h
        simp only [tdbOffSize]
        omega
    · rw [hzero, hlen, Int.natCast_zero, LittleEndian.ofInt_zero]
    · rw [hlen, hnil, ByteFile.read_zero]
  · rw [if_neg hnil] at h
    obtain ⟨hin, hflag, hlen, hbytes⟩ := h
    have hoff : recordOff accepts dat.file.size = dat.file.size := if_pos hin
    obtain ⟨next, hpieces⟩ : ∃ next, pieces accepts v =
        LittleEndian.ofInt 4 0 ++ LittleEndian.ofInt 4 v.length ++ v.bytes ++ next := by
      rw [pieces, if_pos hflag, if_pos hlen, if_pos hbytes]
      exact ⟨_, rfl⟩
    have hfile := (storeData_eq hw accepts v).1
    rw [(patched_spec accepts hsize).2, hoff, hpieces] at hfile
    refine fetchData_of_reads ?_ ?_ ?_ hv
    · rw [hend, hoff, if_pos hflag, if_pos hlen, if_pos hbytes]
      omega
    · have hslice := (patched accepts dat.file).1.read_write_slice dat.file.size
        (LittleEndian.ofInt 4 0) (LittleEndian.ofInt 4 v.length) (v.bytes ++ next)
      simp only [LittleEndian.length_ofInt, ← List.append_assoc] at hslice
      rw [hfile, hslice]
    · have hslice := (patched accepts dat.file).1.read_write_slice dat.file.size
        (LittleEndian.ofInt 4 0 ++ LittleEndian.ofInt 4 v.length) v.bytes next
      simp only [List.length_append, LittleEndian.length_ofInt] at hslice
      rw [hfile]
      exact hslice

end fetch

end CachelibArchive.Tmdb
