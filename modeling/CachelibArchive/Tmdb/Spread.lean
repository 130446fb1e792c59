import CachelibArchive.Tmdb.Index

/-!
# Appending a record among others

The index half of a store of an absent key: one record is written at the end of
the file and one existing pointer is set to it. Records lie behind the bucket
table and apart from each other, and that alone decides which fields change,
whatever strings the records hold and wherever the pointers lead.
-/

namespace CachelibArchive.Tmdb

/-! ## The bytes of a key record -/

theorem length_keyField {k : CString} (hk : k.length ≤ tdbMaxKeyLen) (pad : UInt32) :
    (keyField k pad).length = 68 := by
  simp only [tdbMaxKeyLen, CString.length] at hk
  simp only [keyField, List.length_set, List.length_append, List.length_replicate,
    LittleEndian.length_ofNat, tdbMaxKeyLen, CString.length]
  omega

theorem keyRecordBytes_eq (k : CString) (pad : UInt32) (d n : Int) :
    keyRecordBytes k pad d n = LittleEndian.ofInt 4 0 ++ keyField k pad ++
      LittleEndian.ofInt 8 d ++ LittleEndian.ofInt 8 n := rfl

/-- A key record has 88 bytes, whatever the key. -/
theorem length_keyRecordBytes {k : CString} (hk : k.length ≤ tdbMaxKeyLen) (pad : UInt32)
    (d n : Int) : (keyRecordBytes k pad d n).length = 88 := by
  rw [keyRecordBytes_eq]
  simp only [List.length_append, LittleEndian.length_ofInt, length_keyField hk]

/-- The key array starts with the string and a terminator, which is the first byte of the
padding when the string fills the array. -/
theorem keyField_eq (k : CString) (pad : UInt32) :
    ∃ rest, keyField k pad = k.bytes ++ [0] ++ rest := by
  obtain ⟨b, rest, hrest⟩ : ∃ b rest, List.replicate (tdbMaxKeyLen - k.length) 0 ++
      LittleEndian.ofNat 4 pad.toNat = b :: rest := by
    apply List.exists_cons_of_ne_nil
    apply List.append_ne_nil_of_right_ne_nil
    apply List.ne_nil_of_length_pos
    rw [LittleEndian.length_ofNat]
    decide
  refine ⟨rest, ?_⟩
  rw [keyField, List.append_assoc, hrest, CString.length, List.set_append_right _ _ le_rfl,
    Nat.sub_self, List.set_cons_zero, List.append_assoc]
  rfl

/-! ## The two writes -/

/-- Append a record and store its offset at `target`. -/
def appendLinked (f : ByteFile) (record : List UInt8) (target : Nat) : ByteFile :=
  (f.write f.size record).write target (LittleEndian.ofInt 8 f.size)

section appendLinked

variable {f : ByteFile} {record : List UInt8} {target : Nat}

/-- One record more. -/
theorem size_appendLinked (hr : record.length = 88) (ht : target + 8 ≤ f.size) :
    (appendLinked f record target).size = f.size + 88 := by
  have hne : record ≠ [] := by rintro rfl; simp at hr
  have hs : (f.write f.size record).size = f.size + 88 := by
    rw [f.size_write _ hne, hr]
    omega
  rw [appendLinked, ByteFile.size_write_of_le, hs]
  rw [hs, LittleEndian.length_ofInt]
  omega

/-- Old bytes away from the pointer are unchanged. -/
theorem read_appendLinked {p n : Nat} (hp : p + n ≤ f.size)
    (hd : p + n ≤ target ∨ target + 8 ≤ p) :
    (appendLinked f record target).read p n = f.read p n := by
  rw [appendLinked, ByteFile.read_write_of_disjoint, ByteFile.read_write_of_disjoint]
  · exact .inl hp
  · rwa [LittleEndian.length_ofInt]

/-- The link written leads to the new record. -/
theorem read_appendLinked_target :
    (appendLinked f record target).read target 8 = LittleEndian.ofInt 8 f.size := by
  have h := (f.write f.size record).read_write_self target (LittleEndian.ofInt 8 f.size)
  rwa [LittleEndian.length_ofInt] at h

/-- The new record reads back field by field. -/
theorem read_appendLinked_record (xs ys zs : List UInt8) (ht : target + 8 ≤ f.size) :
    (appendLinked f (xs ++ ys ++ zs) target).read (f.size + xs.length) ys.length = ys := by
  rw [appendLinked, ByteFile.read_write_of_disjoint, ByteFile.read_write_slice]
  right
  rw [LittleEndian.length_ofInt]
  omega

end appendLinked

/-- The same, where either of the writes may have failed. -/
def linkedFile (f : ByteFile) (record : List UInt8) (target : Nat) (hasRecord hasLink : Bool) :
    ByteFile :=
  let g := if hasRecord then f.write f.size record else f
  if hasLink then g.write target (LittleEndian.ofInt 8 f.size) else g

theorem linkedFile_true (f : ByteFile) (record : List UInt8) (target : Nat) :
    linkedFile f record target true true = appendLinked f record target := rfl

theorem linkedFile_false (f : ByteFile) (record : List UInt8) (target : Nat) (hasRecord : Bool) :
    linkedFile f record target hasRecord false =
      if hasRecord then f.write f.size record else f := rfl

/-- Writes that fail take nothing away. -/
theorem size_le_linkedFile (f : ByteFile) (record : List UInt8) (target : Nat)
    (hasRecord hasLink : Bool) : f.size ≤ (linkedFile f record target hasRecord hasLink).size := by
  have hrecord : f.size ≤ (if hasRecord then f.write f.size record else f).size := by
    split_ifs
    · exact f.size_le_size_write ..
    · exact le_rfl
  unfold linkedFile
  cases hasLink with
  | true => exact hrecord.trans (ByteFile.size_le_size_write ..)
  | false => exact hrecord

/-- Old bytes away from the pointer are unchanged, whichever writes succeed. -/
theorem read_linkedFile {f : ByteFile} {record : List UInt8} {target p n : Nat}
    (hasRecord hasLink : Bool) (hp : p + n ≤ f.size)
    (hd : hasLink = true → p + n ≤ target ∨ target + 8 ≤ p) :
    (linkedFile f record target hasRecord hasLink).read p n = f.read p n := by
  have hrecord : (if hasRecord then f.write f.size record else f).read p n = f.read p n := by
    split_ifs
    · exact ByteFile.read_write_of_disjoint _ (.inl hp)
    · rfl
  unfold linkedFile
  cases hasLink with
  | true =>
    rw [if_pos rfl, ByteFile.read_write_of_disjoint, hrecord]
    rw [LittleEndian.length_ofInt]
    exact hd rfl
  | false => exact hrecord

/-! ## The new record -/

section new

variable {f : ByteFile} {target : Nat} (ht : target + 8 ≤ f.size) {k : CString}
  (hk : k.length ≤ tdbMaxKeyLen) (pad : UInt32)

include ht

/-- The new record is not marked as deleted, -/
theorem flag_appendLinked_new (d : Int) :
    (appendLinked f (keyRecordBytes k pad d 0) target).read f.size 4 = LittleEndian.ofInt 4 0 := by
  have h := read_appendLinked_record [] (LittleEndian.ofInt 4 0)
    (keyField k pad ++ LittleEndian.ofInt 8 d ++ LittleEndian.ofInt 8 0) ht
  rw [LittleEndian.length_ofInt] at h
  rw [keyRecordBytes_eq]
  simpa only [List.append_assoc, List.nil_append, List.length_nil, Nat.add_zero] using h

/-- The string of the record and its terminator. -/
theorem name_appendLinked_new (d : Int) :
    (appendLinked f (keyRecordBytes k pad d 0) target).read (f.size + 4) (k.length + 1) =
      k.bytes ++ [0] := by
  obtain ⟨rest, hfield⟩ := keyField_eq k pad
  have hlen : (k.bytes ++ [0]).length = k.length + 1 := List.length_append
  have h := read_appendLinked_record (LittleEndian.ofInt 4 0) (k.bytes ++ [0])
    (rest ++ LittleEndian.ofInt 8 d ++ LittleEndian.ofInt 8 0) ht
  rw [LittleEndian.length_ofInt, hlen] at h
  rw [keyRecordBytes_eq, hfield]
  simpa only [List.append_assoc] using h

include hk

/-- is the last of its chain, -/
theorem nextPtr_appendLinked_new (d : Int) :
    nextPtr (appendLinked f (keyRecordBytes k pad d 0) target) f.size = 0 := by
  have h := read_appendLinked_record (LittleEndian.ofInt 4 0 ++ keyField k pad ++
    LittleEndian.ofInt 8 d) (LittleEndian.ofInt 8 0) [] ht
  simp only [List.length_append, LittleEndian.length_ofInt, length_keyField hk,
    List.append_nil] at h
  rw [nextPtr, keyRecordBytes_eq, h]
  exact LittleEndian.toInt_replicate_zero 8

/-- and points to its data. -/
theorem dataPtr_appendLinked_new {d : Nat} (hd : 2 * d < 2 ^ 64) :
    dataPtr (appendLinked f (keyRecordBytes k pad d 0) target) f.size = d := by
  have h := read_appendLinked_record (LittleEndian.ofInt 4 0 ++ keyField k pad)
    (LittleEndian.ofInt 8 d) (LittleEndian.ofInt 8 0) ht
  simp only [List.length_append, LittleEndian.length_ofInt, length_keyField hk] at h
  rw [dataPtr, keyRecordBytes_eq, h, LittleEndian.toInt_ofInt_natCast hd]

end new

/-! ## The other records -/

/-- Records at these offsets are whole, lie behind the table and are 88 bytes apart, or 164
where a deletion has pushed the end of the file on. -/
structure Spread (size : Nat) (offs : List Nat) : Prop where
  table : tableEnd ≤ size
  past : ∀ o ∈ offs, tableEnd ≤ o
  whole : ∀ o ∈ offs, o + keyRecordSize ≤ size
  spaced : ∀ o ∈ offs, ∀ p ∈ size :: offs, o < p → p = o + 88 ∨ o + 164 ≤ p

/-- Two records are the same or do not overlap. -/
theorem Spread.apart {size : Nat} {offs : List Nat} (w : Spread size offs) {a b : Nat}
    (ha : a ∈ offs) (hb : b ∈ offs) : a = b ∨ a + 88 ≤ b ∨ b + 88 ≤ a := by
  rcases Nat.lt_trichotomy a b with h | h | h
  · have hs := w.spaced a ha b (List.mem_cons_of_mem _ hb) h
    omega
  · exact .inl h
  · have hs := w.spaced b hb a (List.mem_cons_of_mem _ ha) h
    omega

/-- Another record lies in front, begins right behind, or leaves a gap. -/
theorem Spread.behind {size : Nat} {offs : List Nat} (w : Spread size offs) {o p : Nat}
    (ho : o ∈ offs) (hp : p ∈ offs) : o = p ∨ p + 88 ≤ o ∨ p = o + 88 ∨ o + 164 ≤ p := by
  rcases w.apart ho hp with h | h | h
  · exact .inl h
  · have hs := w.spaced o ho p (List.mem_cons_of_mem _ hp) (by omega)
    omega
  · exact .inr (.inl h)

/-- The end of the file relative to a record. -/
theorem Spread.size_spaced {size : Nat} {offs : List Nat} (w : Spread size offs) {o : Nat}
    (ho : o ∈ offs) : size = o + 88 ∨ o + 164 ≤ size := by
  have hw := w.whole o ho
  simp only [keyRecordSize] at hw
  exact w.spaced o ho size List.mem_cons_self (by omega)

/-- The file may grow to where the next record would have a gap in front of it. -/
theorem Spread.grow {size : Nat} {offs : List Nat} (w : Spread size offs) {o : Nat}
    (ho : o ∈ offs) : Spread (max size (o + 164)) offs := by
  refine ⟨w.table.trans (le_max_left ..), w.past,
    fun p hp => (w.whole p hp).trans (le_max_left ..), ?_⟩
  intro p hp q hq hlt
  rcases List.mem_cons.mp hq with rfl | hq
  · have hp' := w.size_spaced hp
    have ho' := w.size_spaced ho
    rcases w.apart ho hp with h | h | h <;> omega
  · exact w.spaced p hp q (List.mem_cons_of_mem _ hq) hlt

/-- The new record begins behind all others. -/
theorem Spread.append {size : Nat} {offs : List Nat} (w : Spread size offs) :
    Spread (size + 88) (offs ++ [size]) := by
  have hlast {o : Nat} (ho : o ∈ offs ++ [size]) : o ∈ offs ∨ o = size := by
    simpa using ho
  refine ⟨Nat.le_add_right_of_le w.table, ?_, ?_, ?_⟩
  · intro o ho
    rcases hlast ho with ho | rfl
    · exact w.past o ho
    · exact w.table
  · intro o ho
    rcases hlast ho with ho | rfl
    · exact Nat.le_add_right_of_le (w.whole o ho)
    · exact le_rfl
  · intro o ho p hp hlt
    rw [List.mem_cons] at hp
    rcases hlast ho with ho | rfl
    · have hend := w.spaced o ho size List.mem_cons_self
      have hw := w.whole o ho
      simp only [keyRecordSize] at hw
      rcases hp with rfl | hp
      · omega
      · rcases hlast hp with hp | rfl
        · exact w.spaced o ho p (List.mem_cons_of_mem _ hp) hlt
        · exact hend hlt
    · rcases hp with rfl | hp
      · exact .inl rfl
      · rcases hlast hp with hp | rfl
        · have hw := w.whole p hp
          simp only [keyRecordSize] at hw
          omega
        · omega

/-- A place that holds a pointer to a record: a bucket, or the next field of a record. -/
inductive Site (offs : List Nat) : Nat → Prop
  | bucket {h : Nat} (hh : h < tdbMaxHashBucket) : Site offs (bucketOff h)
  | record {a : Nat} (ha : a ∈ offs) : Site offs (a + 80)

section site

variable {size : Nat} {offs : List Nat} {target : Nat}

/-- A link lies inside the file. -/
theorem Site.le_size (s : Site offs target) (w : Spread size offs) : target + 8 ≤ size := by
  cases s with
  | bucket hh =>
    have ht := w.table
    simp only [tdbMaxHashBucket, tableEnd, bucketOff, tdbIndexHeaderLen, tdbOffSize] at *
    omega
  | record ha =>
    have hw := w.whole _ ha
    simp only [keyRecordSize] at hw
    omega

/-- No other field of a record overlaps a site, and a next pointer overlaps it only by
being it. -/
theorem Site.apart (s : Site offs target) (w : Spread size offs) {o : Nat} (ho : o ∈ offs) :
    (o + 80 ≤ target ∨ target + 8 ≤ o) ∧
      (target = o + 80 ∨ o + 88 ≤ target ∨ target + 8 ≤ o) := by
  cases s with
  | bucket hh =>
    have hp := w.past o ho
    simp only [tdbMaxHashBucket, tableEnd, bucketOff, tdbIndexHeaderLen, tdbOffSize] at *
    omega
  | record ha =>
    rcases w.apart ha ho with rfl | h | h <;> omega

/-- A bucket pointer overlaps a site only by being it. -/
theorem Site.apart_bucket (s : Site offs target) (w : Spread size offs) {b : Nat}
    (hb : b < tdbMaxHashBucket) :
    target = bucketOff b ∨ bucketOff b + 8 ≤ target ∨ target + 8 ≤ bucketOff b := by
  cases s with
  | bucket hh =>
    simp only [bucketOff, tdbOffSize]
    omega
  | record ha =>
    have hp := w.past _ ha
    simp only [tdbMaxHashBucket, tableEnd, bucketOff, tdbIndexHeaderLen, tdbOffSize] at *
    omega

end site

section fields

variable {f : ByteFile} {offs : List Nat} {target : Nat} (record : List UInt8)
  (hasRecord hasLink : Bool) (w : Spread f.size offs) (s : Site offs target)

include w s

/-- Everything in front of a next field reads as before. -/
theorem Spread.read_linkedFile {o : Nat} (ho : o ∈ offs) {i n : Nat} (hi : i + n ≤ 80) :
    (linkedFile f record target hasRecord hasLink).read (o + i) n = f.read (o + i) n := by
  have hw := w.whole o ho
  have ha := (s.apart w ho).1
  simp only [keyRecordSize] at hw
  exact Tmdb.read_linkedFile hasRecord hasLink (by omega) fun _ => by omega

/-- also when writes fail. -/
theorem Spread.dataPtr_linkedFile {o : Nat} (ho : o ∈ offs) :
    dataPtr (linkedFile f record target hasRecord hasLink) o = dataPtr f o := by
  rw [dataPtr, w.read_linkedFile record hasRecord hasLink s ho (by decide), dataPtr]

/-- A next pointer that is not at the site is kept, and all are without the link. -/
theorem Spread.nextPtr_linkedFile {o : Nat} (ho : o ∈ offs)
    (hne : hasLink = true → target ≠ o + 80) :
    nextPtr (linkedFile f record target hasRecord hasLink) o = nextPtr f o := by
  have hw := w.whole o ho
  simp only [keyRecordSize] at hw
  rw [nextPtr, Tmdb.read_linkedFile hasRecord hasLink (by omega), nextPtr]
  intro hl
  have ha := (s.apart w ho).2.resolve_left (hne hl)
  omega

/-- So is a bucket pointer. -/
theorem Spread.bucketPtr_linkedFile {b : Nat} (hb : b < tdbMaxHashBucket)
    (hne : hasLink = true → target ≠ bucketOff b) :
    bucketPtr (linkedFile f record target hasRecord hasLink) b = bucketPtr f b := by
  have htab := w.table
  have hle : bucketOff b + 8 ≤ f.size := by
    simp only [tdbMaxHashBucket, tableEnd, bucketOff, tdbIndexHeaderLen, tdbOffSize] at *
    omega
  rw [bucketPtr, Tmdb.read_linkedFile hasRecord hasLink hle, bucketPtr]
  intro hl
  exact (s.apart_bucket w hb).resolve_left (hne hl)

/-- The records of the file are not touched but for the link. -/
theorem Spread.read_appendLinked {o : Nat} (ho : o ∈ offs) {i n : Nat} (hi : i + n ≤ 80) :
    (appendLinked f record target).read (o + i) n = f.read (o + i) n :=
  w.read_linkedFile record true true s ho hi

/-- They keep their data pointers, -/
theorem Spread.dataPtr_appendLinked {o : Nat} (ho : o ∈ offs) :
    dataPtr (appendLinked f record target) o = dataPtr f o :=
  w.dataPtr_linkedFile record true true s ho

/-- Exactly the next pointer at the site changes. -/
theorem Spread.nextPtr_appendLinked (hfit : 2 * f.size < 2 ^ 64) {o : Nat} (ho : o ∈ offs) :
    nextPtr (appendLinked f record target) o =
      if target = o + 80 then (f.size : Int) else nextPtr f o := by
  split
  · next ht =>
    rw [nextPtr, ← ht, read_appendLinked_target, LittleEndian.toInt_ofInt_natCast hfit]
  · next ht => exact w.nextPtr_linkedFile record true true s ho fun _ => ht

/-- Exactly the bucket pointer at the site changes. -/
theorem Spread.bucketPtr_appendLinked (hfit : 2 * f.size < 2 ^ 64) {b : Nat}
    (hb : b < tdbMaxHashBucket) :
    bucketPtr (appendLinked f record target) b =
      if target = bucketOff b then (f.size : Int) else bucketPtr f b := by
  split
  · next ht =>
    rw [bucketPtr, ← ht, read_appendLinked_target, LittleEndian.toInt_ofInt_natCast hfit]
  · next ht => exact w.bucketPtr_linkedFile record true true s hb fun _ => ht

end fields

/-! ## Chains -/

/-- Following next pointers meets records at exactly these offsets. -/
abbrev OffChain (f : ByteFile) : Int → List Nat → Prop :=
  Linked.Chain (fun o : Nat => (o : Int)) (nextPtr f) 0

/-- Where a record is linked to follow these: into the bucket or behind the last of them. -/
def linkOff (h : Nat) (L : List Nat) : Nat :=
  match L.getLast? with
  | none => bucketOff h
  | some a => a + 80

@[simp] theorem linkOff_nil (h : Nat) : linkOff h [] = bucketOff h := rfl

/-- The link behind a list is that of its last record. -/
theorem linkOff_concat (h : Nat) (L : List Nat) (a : Nat) : linkOff h (L ++ [a]) = a + 80 := by
  rw [linkOff, List.getLast?_concat]

/-- The end of a chain of records is a site. -/
theorem Site.linkOff {offs L : List Nat} {h : Nat} (hh : h < tdbMaxHashBucket)
    (hsub : ∀ o ∈ L, o ∈ offs) : Site offs (linkOff h L) := by
  rcases List.eq_nil_or_concat L with rfl | ⟨A, a, rfl⟩
  · exact .bucket hh
  · rw [List.concat_eq_append] at hsub ⊢
    rw [linkOff_concat]
    exact .record (hsub a (by simp))

section chain

variable {f : ByteFile} {offs L : List Nat} {record : List UInt8} {h b : Nat}
  (w : Spread f.size offs) (hfit : 2 * f.size < 2 ^ 64) (hsub : ∀ o ∈ L, o ∈ offs)
  (hc : OffChain f (bucketPtr f b) L)

include w hfit hsub hc

/-- A record linked behind the end of a chain extends it. -/
theorem Spread.chain_concat (hb : b < tdbMaxHashBucket) (hn : L.Nodup)
    (hnew : nextPtr (appendLinked f record (linkOff b L)) f.size = 0) :
    OffChain (appendLinked f record (linkOff b L))
      (bucketPtr (appendLinked f record (linkOff b L)) b) (L ++ [f.size]) := by
  have hsite := Site.linkOff hb hsub
  rw [w.bucketPtr_appendLinked record hsite hfit hb]
  rcases List.eq_nil_or_concat L with rfl | ⟨A, a, rfl⟩
  · rw [linkOff_nil, if_pos rfl]
    exact ⟨rfl, hnew⟩
  · rw [List.concat_eq_append] at *
    have hpast := w.past a (hsub a (by simp))
    rw [linkOff_concat] at hsite hnew ⊢
    rw [if_neg]
    · refine hc.concat ?_ ?_ hnew
      · intro o ho
        rw [w.nextPtr_appendLinked record hsite hfit (hsub o (List.mem_append_left _ ho)), if_neg]
        intro ha
        exact (List.nodup_append.mp hn).2.2 o ho a (by simp) (by omega)
      · rw [w.nextPtr_appendLinked record hsite hfit (hsub a (by simp)), if_pos rfl]
    · simp only [tdbMaxHashBucket, tableEnd, bucketOff, tdbIndexHeaderLen, tdbOffSize] at *
      omega

/-- A record linked elsewhere leaves a chain alone. -/
theorem Spread.chain_other (hb : b < tdbMaxHashBucket) {target : Nat} (s : Site offs target)
    (hbucket : target ≠ bucketOff b) (hnext : ∀ o ∈ L, target ≠ o + 80) :
    OffChain (appendLinked f record target) (bucketPtr (appendLinked f record target) b) L := by
  rw [w.bucketPtr_appendLinked record s hfit hb, if_neg hbucket]
  refine hc.congr fun o ho => ?_
  rw [w.nextPtr_appendLinked record s hfit (hsub o ho), if_neg (hnext o ho)]

/-- The end of one bucket's chain is no part of another's, if no record is in both. -/
theorem Spread.chain_disjoint (hb : b < tdbMaxHashBucket) (hh : h < tdbMaxHashBucket)
    (hne : b ≠ h) {M : List Nat} (hsubM : ∀ o ∈ M, o ∈ offs) (hdisj : ∀ o ∈ L, o ∉ M) :
    OffChain (appendLinked f record (linkOff h M))
      (bucketPtr (appendLinked f record (linkOff h M)) b) L := by
  refine w.chain_other hfit hsub hc hb (Site.linkOff hh hsubM) ?_ ?_
  · rcases List.eq_nil_or_concat M with rfl | ⟨A, a, rfl⟩
    · simp only [linkOff_nil, bucketOff, tdbOffSize]
      omega
    · rw [List.concat_eq_append] at hsubM ⊢
      have hpast := w.past a (hsubM a (by simp))
      rw [linkOff_concat]
      simp only [tdbMaxHashBucket, tableEnd, bucketOff, tdbIndexHeaderLen, tdbOffSize] at *
      omega
  · intro o ho
    have hpast := w.past o (hsub o ho)
    rcases List.eq_nil_or_concat M with rfl | ⟨A, a, rfl⟩
    · simp only [linkOff_nil, tdbMaxHashBucket, tableEnd, bucketOff, tdbIndexHeaderLen,
        tdbOffSize] at *
      omega
    · rw [List.concat_eq_append] at hdisj ⊢
      rw [linkOff_concat]
      intro ha
      obtain rfl : a = o := by omega
      exact hdisj a ho (by simp)

end chain

end CachelibArchive.Tmdb
