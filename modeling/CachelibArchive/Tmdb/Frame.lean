import CachelibArchive.Tmdb.Insert

/-!
# Writes that the search does not notice

Overwriting the bytes between the key of a record and its next pointer misses
every key array and every link. The invariant survives such a write, and it also
says where a store may link.
-/

namespace CachelibArchive.Tmdb

/-- A range that misses the key array and the next pointer of every record. -/
structure Harmless (es : List Entry) (q n : Nat) : Prop where
  key : ∀ e ∈ es, q + n ≤ e.off + 4 ∨ e.off + 68 ≤ q
  next : ∀ e ∈ es, q + n ≤ e.off + 80 ∨ e.off + 88 ≤ q

section

variable {f : ByteFile} {es : List Entry} {e : Entry} {q : Nat} {bs : List UInt8}

theorem Harmless.read_key (h : Harmless es q bs.length) (he : e ∈ es) :
    (f.write q bs).read (e.off + 4) 64 = f.read (e.off + 4) 64 := by
  have hk := h.key e he
  exact ByteFile.read_write_of_disjoint _ (by omega)

theorem Harmless.nextPtr (h : Harmless es q bs.length) (he : e ∈ es) :
    nextPtr (f.write q bs) e.off = nextPtr f e.off := by
  have hn := h.next e he
  rw [Tmdb.nextPtr, ByteFile.read_write_of_disjoint _ (by omega), Tmdb.nextPtr]

/-- Writes behind the table change no bucket. -/
theorem bucketPtr_write_of_past (hq : tableEnd ≤ q) {b : Nat} (hb : b < tdbMaxHashBucket) :
    bucketPtr (f.write q bs) b = bucketPtr f b := by
  rw [bucketPtr, ByteFile.read_write_of_disjoint, bucketPtr]
  simp only [tdbMaxHashBucket, tableEnd, bucketOff, tdbIndexHeaderLen, tdbOffSize] at *
  omega

/-- The padding of a record and the low half of its data pointer. -/
theorem WellChained.harmless_overwrite (w : WellChained f es) (he : e ∈ es) :
    Harmless es (e.off + 68) 8 := by
  refine ⟨?_, ?_⟩ <;> intro x hx <;>
    rcases w.apart he hx with rfl | h | h <;> omega

end

/-- The invariant rule for a changed file: every key array and next pointer reads
as before, and every bucket still points to a record of its own. -/
theorem WellChained.frame {f g : ByteFile} {es : List Entry} (w : WellChained f es)
    (hsize : f.size ≤ g.size)
    (hspaced : ∀ e ∈ es, g.size = e.off + 88 ∨ e.off + 164 ≤ g.size)
    (hkey : ∀ e ∈ es, g.read (e.off + 4) 64 = f.read (e.off + 4) 64)
    (hnext : ∀ e ∈ es, nextPtr g e.off = nextPtr f e.off)
    (hbucket : ∀ h < tdbMaxHashBucket, bucketPtr g h = 0 ∨
      ∃ e ∈ es, bucketPtr g h = e.off ∧ dbHash e.key.str = h) : WellChained g es := by
  refine ⟨w.table.trans hsize, ?_, ?_, ?_, hbucket⟩
  · intro e he
    have hm := w.mem e he
    exact ⟨hm.past, hm.whole.trans hsize, (hkey e he).trans hm.key⟩
  · intro e he p hp hlt
    rcases List.mem_cons.mp hp with rfl | hp
    · exact hspaced e he
    · exact w.spaced e he p (List.mem_cons_of_mem _ hp) hlt
  · intro e he
    rw [hnext e he]
    exact w.next e he

/-- The end of the file relative to a record. -/
theorem WellChained.size_spaced {f : ByteFile} {es : List Entry} (w : WellChained f es)
    {e : Entry} (he : e ∈ es) : f.size = e.off + 88 ∨ e.off + 164 ≤ f.size :=
  w.spread.size_spaced (List.mem_map_of_mem he)

/-- A harmless write behind the table that stays inside the file keeps the invariant. -/
theorem WellChained.write {f : ByteFile} {es : List Entry} (w : WellChained f es) {q : Nat}
    {bs : List UInt8} (h : Harmless es q bs.length) (hpast : tableEnd ≤ q)
    (hq : q + bs.length ≤ f.size) : WellChained (f.write q bs) es := by
  refine w.frame (f.size_le_size_write q bs) ?_ (fun e he => h.read_key he)
    (fun e he => h.nextPtr he) ?_
  · rw [f.size_write_of_le hq]
    exact fun e he => w.size_spaced he
  · intro b hb
    rw [bucketPtr_write_of_past hpast hb]
    exact w.bucket b hb

/-- The index file after a replacement has written `record_pos` right behind the
key array of the record at `p`, over the padding and the low half of `data_ptr`. -/
def overwriteData (f : ByteFile) (p d : Nat) : ByteFile :=
  f.write (p + 68) (LittleEndian.ofInt 8 d)

/-- A replacement keeps the invariant. -/
theorem WellChained.overwriteData {f : ByteFile} {es : List Entry} (w : WellChained f es)
    {e : Entry} (he : e ∈ es) (d : Nat) : WellChained (overwriteData f e.off d) es := by
  have hw := (w.mem e he).whole
  simp only [keyRecordSize] at hw
  apply w.write
  · rw [LittleEndian.length_ofInt]
    exact w.harmless_overwrite he
  · exact Nat.le_add_right_of_le (w.mem e he).past
  · rw [LittleEndian.length_ofInt]
    omega

/-- The index file after a deletion: the record at `p` is flagged, and the four
bytes at the offset of its `data_ptr` are copied to `target`. -/
def unlinkFile (f : ByteFile) (p target : Nat) : ByteFile :=
  (f.write p (LittleEndian.ofInt 4 1)).write target (f.read (p + 72) 4)

theorem size_le_unlinkFile (f : ByteFile) (p target : Nat) :
    f.size ≤ (unlinkFile f p target).size :=
  (f.size_le_size_write _ _).trans (ByteFile.size_le_size_write _ _ _)

/-- The flag is inside the file. -/
theorem size_unlinkFile {f : ByteFile} {p : Nat} (hp : p + 4 ≤ f.size) (target : Nat) :
    (unlinkFile f p target).size = max f.size (target + 4) := by
  have hflag : (f.write p (LittleEndian.ofInt 4 1)).size = f.size :=
    ByteFile.size_write_of_le _ (by rwa [LittleEndian.length_ofInt])
  rw [unlinkFile, ByteFile.size_write, ByteFile.length_read, hflag]
  apply List.ne_nil_of_length_pos
  rw [ByteFile.length_read]
  decide

/-- Where a deletion puts the four bytes it takes for the next pointer. -/
def unlinkTarget (f : ByteFile) (h p : Nat) : Nat :=
  if bucketPtr f h = p then tdbIndexHeaderLen + h * tdbIntSize else p + 160

/-! ## The halves of a data pointer -/

/-- An offset below 4 GiB has a zero high half. -/
theorem ofInt_eight_of_lt {d : Nat} (hd : d < 2 ^ 32) :
    LittleEndian.ofInt 8 (d : Int) = LittleEndian.ofNat 4 d ++ List.replicate 4 0 := by
  have hmod : d % 256 ^ 8 = d := Nat.mod_eq_of_lt (by omega)
  have hdiv : d / 256 ^ 4 = 0 := Nat.div_eq_of_lt (by omega)
  rw [LittleEndian.ofInt_natCast, hmod, show 8 = 4 + 4 from rfl, LittleEndian.ofNat_add, hdiv,
    LittleEndian.ofNat_zero]

theorem dataPtr_halves {f : ByteFile} {p d : Nat} (hd : d < 2 ^ 32) (h : dataPtr f p = d) :
    f.read (p + 72) 4 = LittleEndian.ofNat 4 d ∧ f.read (p + 76) 4 = List.replicate 4 0 := by
  have hb := LittleEndian.ofInt_toInt (f.read (p + 72) 8)
  rw [← dataPtr, h, ByteFile.length_read, ofInt_eight_of_lt hd, show 8 = 4 + 4 from rfl,
    ByteFile.read_add] at hb
  obtain ⟨hlow, hhigh⟩ := List.append_inj hb (by simp)
  exact ⟨hlow.symm, hhigh.symm⟩

theorem dataPtr_of_halves {f : ByteFile} {p d : Nat} (hd : d < 2 ^ 32)
    (hlow : f.read (p + 72) 4 = LittleEndian.ofNat 4 d)
    (hhigh : f.read (p + 76) 4 = List.replicate 4 0) : dataPtr f p = d := by
  rw [dataPtr, show 8 = 4 + 4 from rfl, ByteFile.read_add, hlow, hhigh, ← ofInt_eight_of_lt hd,
    LittleEndian.toInt_ofInt_natCast (by omega)]

/-- Two offsets below 4 GiB leave nothing in either half. -/
theorem dataPtr_overwriteData_self {f : ByteFile} {p d d' : Nat} (hd : d < 2 ^ 32)
    (hd' : d' < 2 ^ 32) (hold : dataPtr f p = d') : dataPtr (overwriteData f p d) p = 0 := by
  refine dataPtr_of_halves (d := 0) (by decide) ?_ ?_
  · have hs := f.read_write_slice (p + 68) (LittleEndian.ofNat 4 d) (List.replicate 4 0) []
    rw [List.append_nil, ← ofInt_eight_of_lt hd, LittleEndian.length_ofNat,
      List.length_replicate] at hs
    rw [LittleEndian.ofNat_zero]
    exact hs
  · rw [overwriteData, ByteFile.read_write_of_disjoint, (dataPtr_halves hd' hold).2]
    rw [LittleEndian.length_ofInt]
    omega

/-- Where a chain of the invariant ends, a store may link. -/
theorem LinkSite.of_chain {f : ByteFile} {es L : List Entry} {h : Nat}
    (hh : h < tdbMaxHashBucket) (hc : Chained f (bucketPtr f h) L)
    (hsub : ∀ e ∈ L, e ∈ es ∧ dbHash e.key.str = h) :
    LinkSite f es h (linkTarget h (L.map Entry.stop)) := by
  rcases List.eq_nil_or_concat L with rfl | ⟨L, a, rfl⟩
  · exact .bucket hh hc
  · rw [List.concat_eq_append] at hc hsub ⊢
    obtain ⟨ha, hash⟩ := hsub a (by simp)
    have hz : nextPtr f a.off = 0 := hc.suffix
    have htarget : linkTarget h ((L ++ [a]).map Entry.stop) = a.off + 80 := by
      simp [linkTarget, Entry.stop]
    rw [htarget]
    exact .record ha hash hz

end CachelibArchive.Tmdb
