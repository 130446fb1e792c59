import CachelibArchive.Tmdb.Unlink

/-!
# Misplaced writes into data pointers

A replacement writes its data pointer four bytes in front of where it belongs,
and a deletion behind the head of a chain writes half a data pointer 72 bytes
behind its record. What the data pointers are afterwards: only that of the
record replaced, and that of a record right behind the one deleted, change, and
below 4 GiB only to zero or to another data pointer.
-/

namespace CachelibArchive.Tmdb

/-- The data pointer that a replacement leaves in the record at `p`: the high half of the length
of the data file, next to the other half of the pointer that was there. -/
def slidPtr (f : ByteFile) (p size : Nat) : Int :=
  LittleEndian.toInt ((LittleEndian.ofInt 8 size).drop 4 ++ f.read (p + 76) 4)

/-- The data pointer that a deletion of the record at `p`, not at the head of its bucket, leaves
in a record right behind it: the low half of the deleted one, next to its own other half. -/
def copiedPtr (f : ByteFile) (p : Nat) : Int :=
  LittleEndian.toInt (f.read (p + 72) 4 ++ f.read (p + 164) 4)

section pointers

variable {f : ByteFile} {p d : Nat}

theorem dataPtr_overwriteData (f : ByteFile) (p d : Nat) :
    dataPtr (overwriteData f p d) p = slidPtr f p d := by
  have hlen := LittleEndian.length_ofInt 8 (d : Int)
  have hself : (overwriteData f p d).read (p + 68 + 4) 4 = (LittleEndian.ofInt 8 d).drop 4 := by
    have hs := f.read_write_slice (p + 68) ((LittleEndian.ofInt 8 d).take 4)
      ((LittleEndian.ofInt 8 d).drop 4) []
    simpa [hlen, overwriteData] using hs
  have hrest : (overwriteData f p d).read (p + 76) 4 = f.read (p + 76) 4 := by
    rw [overwriteData, ByteFile.read_write_of_disjoint]
    omega
  rw [dataPtr, show 8 = 4 + 4 from rfl, ByteFile.read_add, hrest]
  exact congrArg (fun low => LittleEndian.toInt (low ++ _)) hself

/-- Two offsets below 4 GiB leave zero. -/
theorem slidPtr_of_lt {d' : Nat} (hd : d < 2 ^ 32) (hd' : d' < 2 ^ 32) (hold : dataPtr f p = d') :
    slidPtr f p d = 0 := by
  rw [← dataPtr_overwriteData]
  exact dataPtr_overwriteData_self hd hd' hold

/-- Two data pointers below 4 GiB leave the one of the record deleted. -/
theorem copiedPtr_of_lt {d' : Nat} (hd : d < 2 ^ 32) (hd' : d' < 2 ^ 32)
    (hp : dataPtr f p = d) (hnext : dataPtr f (p + 88) = d') : copiedPtr f p = d := by
  obtain ⟨hlow, -⟩ := dataPtr_halves hd hp
  obtain ⟨-, hhigh⟩ := dataPtr_halves hd' hnext
  rw [copiedPtr, hlow, show p + 164 = p + 88 + 76 from rfl, hhigh, ← ofInt_eight_of_lt hd,
    LittleEndian.toInt_ofInt_natCast (by omega)]

end pointers

section records

variable {f : ByteFile} {offs : List Nat} (w : Spread f.size offs) {p : Nat} (hp : p ∈ offs)

include w hp

/-- A replacement keeps the data pointers of the other records. -/
theorem Spread.dataPtr_overwriteData_of_ne {o : Nat} (ho : o ∈ offs) (hne : p ≠ o) (d : Nat) :
    dataPtr (overwriteData f p d) o = dataPtr f o := by
  have ha := (w.apart hp ho).resolve_left hne
  rw [dataPtr, overwriteData, ByteFile.read_write_of_disjoint, dataPtr]
  rw [LittleEndian.length_ofInt]
  omega

/-- A deletion changes the data pointer of a record right behind its own, and of no other. -/
theorem Spread.dataPtr_unlink {h : Nat} (hh : h < tdbMaxHashBucket) {o : Nat} (ho : o ∈ offs) :
    dataPtr (unlinkFile f p (unlinkTarget f h p)) o =
      if bucketPtr f h ≠ p ∧ o = p + 88 then copiedPtr f p else dataPtr f o := by
  have hpast := w.past o ho
  have hbehind := w.behind hp ho
  have hlow := ByteFile.length_read f (p + 72) 4
  have hflag {q n : Nat} (hqn : q + n ≤ p ∨ p + 4 ≤ q) :
      (f.write p (LittleEndian.ofInt 4 1)).read q n = f.read q n := by
    apply ByteFile.read_write_of_disjoint
    rwa [LittleEndian.length_ofInt]
  simp only [tdbMaxHashBucket, tableEnd] at hh hpast
  split_ifs with hnext
  · obtain ⟨hhead, rfl⟩ := hnext
    have hself := (f.write p (LittleEndian.ofInt 4 1)).read_write_self (p + 160) (f.read (p + 72) 4)
    rw [hlow] at hself
    rw [dataPtr, unlinkTarget, if_neg hhead, unlinkFile, show 8 = 4 + 4 from rfl, ByteFile.read_add,
      copiedPtr]
    refine congrArg LittleEndian.toInt (congrArg₂ (· ++ ·) hself ?_)
    rw [ByteFile.read_write_of_disjoint _ (.inr (by rw [hlow])), hflag (.inr (by omega))]
  · rw [dataPtr, unlinkFile, ByteFile.read_write_of_disjoint, hflag (by omega), dataPtr]
    rw [hlow, unlinkTarget]
    simp only [tdbIndexHeaderLen, tdbIntSize]
    split_ifs with hhead
    · omega
    · have hgap : o ≠ p + 88 := fun ho => hnext ⟨hhead, ho⟩
      omega

/-- The end of the file behind a deletion. -/
theorem Spread.size_unlink {h : Nat} (hh : h < tdbMaxHashBucket) :
    (unlinkFile f p (unlinkTarget f h p)).size =
      if bucketPtr f h ≠ p ∧ f.size = p + 88 then f.size + 76 else f.size := by
  have hwhole := w.whole p hp
  have hspaced := w.size_spaced hp
  have htable := w.table
  simp only [keyRecordSize, tdbMaxHashBucket, tableEnd] at hwhole hh htable
  rw [size_unlinkFile (by omega), unlinkTarget]
  simp only [tdbIndexHeaderLen, tdbIntSize]
  split_ifs <;> omega

end records

end CachelibArchive.Tmdb
