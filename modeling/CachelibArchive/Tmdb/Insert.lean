import CachelibArchive.Tmdb.Search
import CachelibArchive.Tmdb.Spread

/-!
# Inserting a caller's key

A store of an absent key appends a record and sets a pointer that was zero to
it. What it changes among the records of the invariant follows from where they
stand; that the pointer belongs to the right bucket keeps the invariant.
-/

namespace CachelibArchive.Tmdb

/-! ## The bytes of a key record -/

/-- The terminator of a caller's key falls on a byte that is already zero. -/
theorem keyField_key (k : Key) (pad : UInt32) :
    keyField k.str pad = keyArray k.str ++ LittleEndian.ofNat 4 pad.toNat := by
  have hs := k.short
  simp only [tdbMaxKeyLen, CString.length] at hs
  obtain ⟨n, hn⟩ : ∃ n, 64 - k.str.bytes.length = n + 1 := ⟨63 - k.str.bytes.length, by omega⟩
  simp only [keyField, keyArray, CString.length, tdbMaxKeyLen, hn, List.replicate_succ,
    List.append_assoc, List.cons_append]
  rw [List.set_append_right _ _ le_rfl, Nat.sub_self, List.set_cons_zero]

theorem length_keyArray (k : Key) : (keyArray k.str).length = 64 := by
  have hs := k.short
  simp only [tdbMaxKeyLen, CString.length] at hs
  simp only [keyArray, CString.length, tdbMaxKeyLen, List.length_append, List.length_replicate]
  omega

theorem keyRecordBytes_key (k : Key) (pad : UInt32) (d n : Int) :
    keyRecordBytes k.str pad d n =
      LittleEndian.ofInt 4 0 ++ keyArray k.str ++ LittleEndian.ofNat 4 pad.toNat ++
        LittleEndian.ofInt 8 d ++ LittleEndian.ofInt 8 n := by
  rw [keyRecordBytes, keyField_key]
  simp only [tdbIntSize, tdbOffSize, List.append_assoc]

/-! ## The new record -/

/-- The new record is whole and holds its key. -/
theorem In_appendLinked_new (htable : tableEnd ≤ f.size) (ht : target + 8 ≤ f.size) (k : Key)
    (pad : UInt32) (d : Int) :
    Entry.In ⟨f.size, k⟩ (appendLinked f (keyRecordBytes k.str pad d 0) target) := by
  refine ⟨htable, ?_, ?_⟩
  · rw [size_appendLinked (length_keyRecordBytes k.short.le pad d 0) ht]
    exact le_rfl
  · have hk := read_appendLinked_record (LittleEndian.ofInt 4 0) (keyArray k.str)
      (LittleEndian.ofNat 4 pad.toNat ++ LittleEndian.ofInt 8 d ++ LittleEndian.ofInt 8 0) ht
    rw [LittleEndian.length_ofInt, length_keyArray] at hk
    rw [keyRecordBytes_key]
    simpa only [List.append_assoc] using hk

/-! ## Where a store links -/

/-- The records of the invariant stand apart. -/
theorem WellChained.spread {f : ByteFile} {es : List Entry} (w : WellChained f es) :
    Spread f.size (es.map Entry.off) := by
  refine ⟨w.table, ?_, ?_, ?_⟩ <;> rw [List.forall_mem_map]
  · exact fun e he => (w.mem e he).past
  · exact fun e he => (w.mem e he).whole
  · exact fun e he => w.spaced e he

/-- Two records of the invariant are the same or do not overlap. -/
theorem WellChained.apart {f : ByteFile} {es : List Entry} (w : WellChained f es)
    {a e : Entry} (ha : a ∈ es) (he : e ∈ es) :
    a = e ∨ a.off + 88 ≤ e.off ∨ e.off + 88 ≤ a.off :=
  (w.spread.apart (List.mem_map_of_mem ha) (List.mem_map_of_mem he)).imp_left
    (Entry.eq_of_off (w.mem a ha) (w.mem e he))

/-- Where a store of a key of bucket `h` puts the pointer to its record: the
bucket itself when it is empty, or the next pointer of a record that ends a chain. -/
inductive LinkSite (f : ByteFile) (es : List Entry) (h : Nat) : Nat → Prop
  | bucket (hh : h < tdbMaxHashBucket) (hz : bucketPtr f h = 0) : LinkSite f es h (bucketOff h)
  | record {a : Entry} (ha : a ∈ es) (hash : dbHash a.key.str = h) (hz : nextPtr f a.off = 0) :
      LinkSite f es h (a.off + 80)

/-- A chain of records is the chain of their offsets. -/
theorem chained_iff_offChain {f : ByteFile} {p : Int} {L : List Entry} :
    Chained f p L ↔ OffChain f p (L.map Entry.off) := by
  rw [OffChain, Linked.chain_map]
  rfl

/-- What a search finds of a chain says where its end is. -/
theorem linkTarget_eq (h : Nat) (T : List Stop) : linkTarget h T = linkOff h (T.map Stop.off) := by
  unfold linkTarget linkOff
  rw [List.getLast?_map]
  cases T.getLast? <;> rfl

theorem LinkSite.site {f : ByteFile} {es : List Entry} {h target : Nat}
    (s : LinkSite f es h target) : Site (es.map Entry.off) target := by
  cases s with
  | bucket hh _ => exact .bucket hh
  | record ha _ _ => exact .record (List.mem_map_of_mem ha)

theorem LinkSite.le_size {f : ByteFile} {es : List Entry} {h target : Nat}
    (s : LinkSite f es h target) (w : WellChained f es) : target + 8 ≤ f.size :=
  s.site.le_size w.spread

/-- A store links into no other bucket. -/
theorem LinkSite.ne_bucketOff {f : ByteFile} {es : List Entry} {h target b : Nat}
    (s : LinkSite f es h target) (w : WellChained f es) (hb : b < tdbMaxHashBucket)
    (hne : b ≠ h) : target ≠ bucketOff b := by
  cases s with
  | bucket hh _ =>
    simp only [bucketOff, tdbOffSize]
    omega
  | record ha _ _ =>
    have hp := (w.mem _ ha).past
    simp only [tdbMaxHashBucket, tableEnd, bucketOff, tdbIndexHeaderLen, tdbOffSize] at *
    omega

/-- A store links behind no record of another bucket. -/
theorem LinkSite.ne_next {f : ByteFile} {es : List Entry} {h target : Nat}
    (s : LinkSite f es h target) (w : WellChained f es) {e : Entry} (he : e ∈ es)
    (hne : dbHash e.key.str ≠ h) : target ≠ e.off + 80 := by
  cases s with
  | bucket hh _ =>
    have hp := (w.mem e he).past
    simp only [tdbMaxHashBucket, tableEnd, bucketOff, tdbIndexHeaderLen, tdbOffSize] at *
    omega
  | record ha hash _ =>
    intro ht
    rw [Entry.eq_of_off (w.mem _ ha) (w.mem e he) (by omega)] at hash
    exact hne hash

section fields

variable {f : ByteFile} {es : List Entry} {h target : Nat} (record : List UInt8)

theorem In_appendLinked (w : WellChained f es) (s : LinkSite f es h target)
    (hr : record.length = 88) {e : Entry} (he : e ∈ es) : e.In (appendLinked f record target) := by
  have hm := w.mem e he
  refine ⟨hm.past, ?_, ?_⟩
  · rw [size_appendLinked hr (s.le_size w)]
    exact Nat.le_add_right_of_le hm.whole
  · rw [w.spread.read_appendLinked record s.site (List.mem_map_of_mem he) (by decide), hm.key]

theorem dataPtr_appendLinked (w : WellChained f es) (s : LinkSite f es h target) {e : Entry}
    (he : e ∈ es) : dataPtr (appendLinked f record target) e.off = dataPtr f e.off :=
  w.spread.dataPtr_appendLinked record s.site (List.mem_map_of_mem he)

/-- Exactly the next pointer at the site changes. -/
theorem nextPtr_appendLinked (w : WellChained f es) (s : LinkSite f es h target)
    (hfit : 2 * f.size < 2 ^ 64) {e : Entry} (he : e ∈ es) :
    nextPtr (appendLinked f record target) e.off =
      if target = e.off + 80 then (f.size : Int) else nextPtr f e.off :=
  w.spread.nextPtr_appendLinked record s.site hfit (List.mem_map_of_mem he)

/-- Exactly the bucket pointer at the site changes. -/
theorem bucketPtr_appendLinked (w : WellChained f es) (s : LinkSite f es h target)
    (hfit : 2 * f.size < 2 ^ 64) {b : Nat} (hb : b < tdbMaxHashBucket) :
    bucketPtr (appendLinked f record target) b =
      if target = bucketOff b then (f.size : Int) else bucketPtr f b :=
  w.spread.bucketPtr_appendLinked record s.site hfit hb

end fields

/-- Appending and linking a record of the right bucket keeps the invariant. -/
theorem WellChained.append {f : ByteFile} {es : List Entry} (w : WellChained f es)
    {k : Key} {target : Nat} (s : LinkSite f es (dbHash k.str) target)
    (hfit : 2 * f.size < 2 ^ 64) (pad : UInt32) (d : Int) :
    WellChained (appendLinked f (keyRecordBytes k.str pad d 0) target) (es ++ [⟨f.size, k⟩]) := by
  have hr := length_keyRecordBytes k.short.le pad d 0
  have hsize := size_appendLinked hr (s.le_size w)
  have hspread := w.spread.append
  refine ⟨?_, ?_, ?_, ?_, ?_⟩
  · rw [hsize]
    exact hspread.table
  · intro e he
    rcases List.mem_append.mp he with he | he
    · exact In_appendLinked _ w s hr he
    · obtain rfl := List.mem_singleton.mp he
      exact In_appendLinked_new w.table (s.le_size w) k pad d
  · intro e he
    rw [hsize, List.map_append]
    apply hspread.spaced
    simpa using List.mem_map_of_mem (f := Entry.off) he
  · intro e he
    rcases List.mem_append.mp he with he | he
    · rw [nextPtr_appendLinked _ w s hfit he]
      split
      · next ht =>
        -- the only record whose link changes is the one the site belongs to
        refine .inr ⟨⟨f.size, k⟩, by simp, rfl, ?_, ?_⟩
        · show e.off < f.size
          have hw := (w.mem e he).whole
          simp only [keyRecordSize] at hw
          omega
        · by_contra hne
          exact s.ne_next w he (Ne.symm hne) ht
      · rcases w.next e he with hz | ⟨e', he', h⟩
        · exact .inl hz
        · exact .inr ⟨e', List.mem_append_left _ he', h⟩
    · obtain rfl := List.mem_singleton.mp he
      exact .inl (nextPtr_appendLinked_new (s.le_size w) k.short.le pad d)
  · intro b hb
    rw [bucketPtr_appendLinked _ w s hfit hb]
    split
    · next ht =>
      refine .inr ⟨⟨f.size, k⟩, by simp, rfl, ?_⟩
      by_contra hne
      exact s.ne_bucketOff w hb (Ne.symm hne) ht
    · rcases w.bucket b hb with hz | ⟨e, he, h⟩
      · exact .inl hz
      · exact .inr ⟨e, List.mem_append_left _ he, h⟩

end CachelibArchive.Tmdb
