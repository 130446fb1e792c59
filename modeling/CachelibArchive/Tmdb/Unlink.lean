import CachelibArchive.Tmdb.Invariant

/-!
# What a deletion does to the index

A deletion takes the low half of the record's `data_ptr` for its next pointer
and stores it as four bytes: at the head of bucket `h` into half a pointer of
bucket `h / 2`, elsewhere into the next record or behind the end of the file. No
record is ever taken out of its own chain, so what matters is which pointer is
left in bucket `h / 2`. If that is zero or a record of the bucket, the invariant
survives; otherwise the bucket is lost at once.
-/

namespace CachelibArchive.Tmdb

/-- The pointer that a deletion at the head of bucket `h` leaves in bucket `h / 2`:
the low half of the `data_ptr` of the record at `p`, next to the other half of
the pointer that was there. -/
def splicedPtr (f : ByteFile) (h p : Nat) : Int :=
  LittleEndian.toInt <|
    if h % 2 = 0 then f.read (p + 72) 4 ++ f.read (bucketOff (h / 2) + 4) 4
    else f.read (bucketOff (h / 2)) 4 ++ f.read (p + 72) 4

/-! ## The bucket table -/

section table

variable {f : ByteFile} {p h b : Nat} (hp : tableEnd ≤ p)

include hp

/-- Away from the head no bucket changes. -/
theorem bucketPtr_unlink_of_not_head (hne : bucketPtr f h ≠ p) (hb : b < tdbMaxHashBucket) :
    bucketPtr (unlinkFile f p (unlinkTarget f h p)) b = bucketPtr f b := by
  rw [unlinkTarget, if_neg hne, unlinkFile,
    bucketPtr_write_of_past (Nat.le_add_right_of_le hp) hb, bucketPtr_write_of_past hp hb]

/-- At the head only bucket `h / 2` changes. -/
theorem bucketPtr_unlink_of_ne (hb : b < tdbMaxHashBucket) (hne : b ≠ h / 2) :
    bucketPtr (unlinkFile f p (unlinkTarget f h p)) b = bucketPtr f b := by
  by_cases hhead : bucketPtr f h = p
  · have hlen := ByteFile.length_read f (p + 72) 4
    rw [unlinkTarget, if_pos hhead, unlinkFile, bucketPtr,
      ByteFile.read_write_of_disjoint, ← bucketPtr, bucketPtr_write_of_past hp hb]
    rw [hlen]
    simp only [bucketOff, tdbIndexHeaderLen, tdbOffSize, tdbIntSize]
    omega
  · exact bucketPtr_unlink_of_not_head hp hhead hb

/-- The pointer left in bucket `h / 2`. -/
theorem bucketPtr_unlink_head (hh : h < tdbMaxHashBucket) (hhead : bucketPtr f h = p) :
    bucketPtr (unlinkFile f p (unlinkTarget f h p)) (h / 2) = splicedPtr f h p := by
  have hlen := ByteFile.length_read f (p + 72) 4
  have hflag {q n : Nat} (hqn : q + n ≤ tableEnd) :
      (f.write p (LittleEndian.ofInt 4 1)).read q n = f.read q n :=
    ByteFile.read_write_of_disjoint _ (.inl (by omega))
  have hself (g : ByteFile) (q : Nat) : (g.write q (f.read (p + 72) 4)).read q 4 =
      f.read (p + 72) 4 := by
    have hs := g.read_write_self q (f.read (p + 72) 4)
    rwa [hlen] at hs
  rw [unlinkTarget, if_pos hhead, unlinkFile, bucketPtr, splicedPtr, show 8 = 4 + 4 from rfl,
    ByteFile.read_add]
  simp only [tdbMaxHashBucket, tableEnd] at hh hflag
  rcases Nat.mod_two_eq_zero_or_one h with h0 | h1
  · have hq : tdbIndexHeaderLen + h * tdbIntSize = bucketOff (h / 2) := by
      simp only [bucketOff, tdbIndexHeaderLen, tdbOffSize, tdbIntSize]
      omega
    rw [if_pos h0, hq, hself, ByteFile.read_write_of_disjoint _ (.inr (by rw [hlen])), hflag]
    simp only [bucketOff, tdbIndexHeaderLen, tdbOffSize]
    omega
  · have hq : tdbIndexHeaderLen + h * tdbIntSize = bucketOff (h / 2) + 4 := by
      simp only [bucketOff, tdbIndexHeaderLen, tdbOffSize, tdbIntSize]
      omega
    rw [if_neg (by omega), hq, hself, ByteFile.read_write_of_disjoint _ (.inl le_rfl), hflag]
    simp only [bucketOff, tdbIndexHeaderLen, tdbOffSize]
    omega

end table

/-! ## The records -/

section records

variable {f : ByteFile} {offs : List Nat} {p h : Nat} (w : Spread f.size offs) (hp : p ∈ offs)
  (hh : h < tdbMaxHashBucket)

include w hp hh

/-- Both writes miss the strings and the next pointers of all records. -/
theorem Spread.read_unlink {o : Nat} (ho : o ∈ offs) {i n : Nat} (hi : 4 ≤ i)
    (hn : i + n ≤ 72 ∨ 80 ≤ i ∧ i + n ≤ 88) :
    (unlinkFile f p (unlinkTarget f h p)).read (o + i) n = f.read (o + i) n := by
  have hbehind := w.behind hp ho
  have hpast := w.past o ho
  rw [unlinkFile, ByteFile.read_write_of_disjoint, ByteFile.read_write_of_disjoint]
  · rw [LittleEndian.length_ofInt]
    omega
  · rw [ByteFile.length_read, unlinkTarget]
    simp only [tdbMaxHashBucket, tableEnd, tdbIndexHeaderLen, tdbIntSize] at *
    split_ifs <;> omega

/-- The flag is little-endian, its last byte stays zero. -/
theorem Spread.front_unlink {o : Nat} (ho : o ∈ offs) (hzero : f.byte (o + 3) = 0) :
    (unlinkFile f p (unlinkTarget f h p)).byte (o + 3) = 0 := by
  have hbehind := w.behind hp ho
  have hpast := w.past o ho
  have hread : (unlinkFile f p (unlinkTarget f h p)).read (o + 3) 1 =
      (f.write p (LittleEndian.ofInt 4 1)).read (o + 3) 1 := by
    rw [unlinkFile, ByteFile.read_write_of_disjoint]
    rw [ByteFile.length_read, unlinkTarget]
    simp only [tdbMaxHashBucket, tableEnd, tdbIndexHeaderLen, tdbIntSize] at *
    split_ifs <;> omega
  rw [ByteFile.read_one, ByteFile.read_one, List.singleton_inj] at hread
  rw [hread]
  rcases eq_or_ne p o with rfl | hne
  · have hflag := f.read_write_self p (LittleEndian.ofInt 4 1)
    rw [LittleEndian.length_ofInt] at hflag
    exact ByteFile.byte_of_read hflag rfl
  · have hkeep : (f.write p (LittleEndian.ofInt 4 1)).read (o + 3) 1 = f.read (o + 3) 1 := by
      apply ByteFile.read_write_of_disjoint
      rw [LittleEndian.length_ofInt]
      omega
    rw [ByteFile.read_one, ByteFile.read_one, List.singleton_inj] at hkeep
    rw [hkeep, hzero]

/-- The end of the file stays where a record may follow. -/
theorem Spread.unlink : Spread (unlinkFile f p (unlinkTarget f h p)).size offs := by
  have hwhole := w.whole p hp
  have htable := w.table
  simp only [keyRecordSize] at hwhole
  rw [size_unlinkFile (by omega), unlinkTarget]
  split_ifs
  · rw [max_eq_left]
    · exact w
    · simp only [tdbMaxHashBucket, tableEnd, tdbIndexHeaderLen, tdbIntSize] at *
      omega
  · exact w.grow hp

end records

/-- Records stay whole and keep their keys and next pointers. -/
theorem WellChained.unlink_record {f : ByteFile} {es : List Entry} {e : Entry}
    (w : WellChained f es) (he : e ∈ es) {h : Nat} (hh : h < tdbMaxHashBucket) {x : Entry}
    (hx : x ∈ es) : x.In (unlinkFile f e.off (unlinkTarget f h e.off)) ∧
      nextPtr (unlinkFile f e.off (unlinkTarget f h e.off)) x.off = nextPtr f x.off := by
  have hmem := List.mem_map_of_mem (f := Entry.off) he
  have hmem' := List.mem_map_of_mem (f := Entry.off) hx
  have hin := w.mem x hx
  refine ⟨⟨hin.past, hin.whole.trans (size_le_unlinkFile ..), ?_⟩, ?_⟩
  · rw [w.spread.read_unlink hmem hh hmem' (by decide) (.inl (by decide)), hin.key]
  · exact congrArg _ (w.spread.read_unlink hmem hh hmem' (by decide) (.inr (by decide)))

end CachelibArchive.Tmdb
