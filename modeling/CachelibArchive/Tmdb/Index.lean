import CachelibArchive.Core.Linked
import CachelibArchive.Tmdb.Operations

/-!
# What the index file represents

The callers' keys, the fields of a record at an offset, and the invariant of
the index file: every record written so far is whole and disjoint from the
others, and every pointer, whether in the bucket table or in a record, is zero
or the offset of a written record of the same bucket further on. Following
pointers therefore always ends, and what it visits is a chain.
-/

namespace CachelibArchive.Tmdb

/-- A key as the callers pass it: 1 to 63 bytes, the last of them not blank. -/
structure Key where
  str : CString
  pos : 0 < str.length
  short : str.length < tdbMaxKeyLen
  trimmed : ∀ c ∈ str.bytes.getLast?, isspace c = false
  deriving DecidableEq

/-- A value shorter than the record limit. -/
structure Value where
  str : CString
  short : str.length < tdbMaxRecordLen
  deriving DecidableEq

/-- The decimal keys 1 and 2. -/
def keyOne : Key := ⟨⟨[49], by decide⟩, by decide, by decide, by simp [isspace]⟩
def keyTwo : Key := ⟨⟨[50], by decide⟩, by decide, by decide, by simp [isspace]⟩

/-- Two keys of one bucket. -/
def keyZeroA : Key := ⟨⟨[48, 65], by decide⟩, by decide, by decide, by simp [isspace]⟩
def keyRza : Key := ⟨⟨[114, 122, 97], by decide⟩, by decide, by decide, by simp [isspace]⟩

/-- One-byte values. -/
def valueX : Value := ⟨⟨[120], by decide⟩, by decide⟩
def valueY : Value := ⟨⟨[121], by decide⟩, by decide⟩

theorem Key.ext {k k' : Key} (h : k.str.bytes = k'.str.bytes) : k = k' := by
  cases k; cases k'; cases CString.ext h; rfl

theorem Value.ext {v v' : Value} (h : v.str = v'.str) : v = v' := by
  cases v; cases v'; cases h; rfl

/-- The length check of every operation lets the key pass. -/
structure KeyLength (key : CString) : Prop where
  pos : 0 < key.length
  le : key.length ≤ tdbMaxKeyLen

instance (key : CString) : Decidable (KeyLength key) :=
  decidable_of_iff (0 < key.length ∧ key.length ≤ tdbMaxKeyLen)
    ⟨fun h => ⟨h.1, h.2⟩, fun h => ⟨h.pos, h.le⟩⟩

theorem KeyLength.ok {key : CString} (h : KeyLength key) :
    ¬(key.length ≤ 0 ∨ tdbMaxKeyLen < key.length) := by
  rintro (hz | hl)
  · exact Nat.not_le_of_lt h.pos hz
  · exact Nat.not_lt_of_le h.le hl

theorem not_keyLength {key : CString} (h : ¬KeyLength key) :
    key.length ≤ 0 ∨ tdbMaxKeyLen < key.length := by
  by_contra hok
  exact h ⟨Nat.lt_of_not_le fun h => hok (.inl h), Nat.le_of_not_lt fun h => hok (.inr h)⟩

theorem Key.keyLength (k : Key) : KeyLength k.str := ⟨k.pos, k.short.le⟩

/-- Trimming leaves a key without trailing blanks alone, whatever stands before it. -/
theorem rtrim_key (k : Key) (before : List UInt8) :
    rtrim before k.str.bytes = some k.str.bytes := by
  have hne : k.str.bytes ≠ [] := by
    intro h
    have hp := k.pos
    simp [CString.length, h] at hp
  have hd : k.str.bytes.rdropWhile isspace = k.str.bytes := by
    rw [List.rdropWhile_eq_self_iff]
    intro hn
    simp [k.trimmed _ (List.getLast?_eq_getLast_of_ne_nil hn ▸ Option.mem_some_self _)]
  unfold rtrim
  rw [if_pos (by rwa [hd]), hd]

/-! ## Record fields -/

/-- Offset of the first byte behind the bucket table. -/
@[simp] def tableEnd : Nat := 5243136

/-- Offset of a bucket pointer. -/
@[simp] def bucketOff (h : Nat) : Nat := tdbIndexHeaderLen + h * tdbOffSize

/-- The pointer stored for a bucket. -/
def bucketPtr (f : ByteFile) (h : Nat) : Int := LittleEndian.toInt (f.read (bucketOff h) 8)

/-- The eight bytes at the offset of `next_ptr`. -/
def nextPtr (f : ByteFile) (p : Nat) : Int := LittleEndian.toInt (f.read (p + 80) 8)

/-- The eight bytes at the offset of `data_ptr`. -/
def dataPtr (f : ByteFile) (p : Nat) : Int := LittleEndian.toInt (f.read (p + 72) 8)

/-- The key array as a store fills it. -/
def keyArray (k : CString) : List UInt8 := k.bytes ++ List.replicate (tdbMaxKeyLen - k.length) 0

theorem recordNextPtr_read (f : ByteFile) (p : Nat) :
    recordNextPtr (f.read p keyRecordSize) = nextPtr f p := by
  rw [recordNextPtr, ByteFile.drop_read _ (by decide), ByteFile.take_read _ (by decide)]
  rfl

theorem recordDataPtr_read (f : ByteFile) (p : Nat) :
    recordDataPtr (f.read p keyRecordSize) = dataPtr f p := by
  rw [recordDataPtr, ByteFile.drop_read _ (by decide), ByteFile.take_read _ (by decide)]
  rfl

/-- A record whose key array was filled from a caller's key compares as that key. -/
theorem recordKey_read {f : ByteFile} {p : Nat} {k : Key}
    (h : f.read (p + 4) 64 = keyArray k.str) :
    recordKey (f.read p keyRecordSize) = some k.str.bytes := by
  have hs := k.short
  simp only [tdbMaxKeyLen] at hs
  obtain ⟨n, hn⟩ : ∃ n, 64 - k.str.length = n + 1 := ⟨63 - k.str.length, by omega⟩
  have hrest : (f.read p keyRecordSize).drop tdbIntSize =
      k.str.bytes ++ 0 :: (List.replicate n 0 ++ f.read (p + 68) 20) := by
    rw [ByteFile.drop_read _ (by decide), show keyRecordSize - tdbIntSize = 64 + 20 from rfl,
      ByteFile.read_add, tdbIntSize, h, keyArray, tdbMaxKeyLen, hn]
    simp [List.replicate_succ, Nat.add_assoc]
  have hscan := CString.ofBytes_append_nul (t := List.replicate n 0 ++ f.read (p + 68) 20)
    k.str.nul_free
  simp only [CString.ofBytes] at hscan
  unfold recordKey
  rw [hrest, if_pos (by simp), hscan, rtrim_key]

/-! ## The invariant -/

/-- A record written by a store: where it starts and the key it was written for. -/
structure Entry where
  off : Nat
  key : Key
  deriving DecidableEq

/-- The record is whole, behind the table, and holds its key. -/
structure Entry.In (e : Entry) (f : ByteFile) : Prop where
  past : tableEnd ≤ e.off
  whole : e.off + keyRecordSize ≤ f.size
  key : f.read (e.off + 4) 64 = keyArray e.key.str

/-- Chains of the index file, by record. -/
abbrev Chained (f : ByteFile) : Int → List Entry → Prop :=
  Linked.Chain (fun e : Entry => (e.off : Int)) (fun e => nextPtr f e.off) 0

/-- The invariant of the index file over the records written so far. Records are
88 bytes apart, or 164 where a deletion has pushed the end of the file on. -/
structure WellChained (f : ByteFile) (es : List Entry) : Prop where
  table : tableEnd ≤ f.size
  mem : ∀ e ∈ es, e.In f
  spaced : ∀ e ∈ es, ∀ p ∈ f.size :: es.map Entry.off,
    e.off < p → p = e.off + 88 ∨ e.off + 164 ≤ p
  next : ∀ e ∈ es, nextPtr f e.off = 0 ∨
    ∃ e' ∈ es, nextPtr f e.off = e'.off ∧ e.off < e'.off ∧ dbHash e'.key.str = dbHash e.key.str
  bucket : ∀ h < tdbMaxHashBucket, bucketPtr f h = 0 ∨
    ∃ e ∈ es, bucketPtr f h = e.off ∧ dbHash e.key.str = h

/-- The bytes at an offset determine the key, so records are determined by their offset. -/
theorem Entry.eq_of_off {f : ByteFile} {e e' : Entry} (h : e.In f) (h' : e'.In f)
    (ho : e.off = e'.off) : e = e' := by
  have hk : e.key = e'.key := by
    apply Key.ext
    have hr := recordKey_read h.key
    rw [ho, recordKey_read h'.key] at hr
    exact (Option.some.inj hr).symm
  cases e; cases e'; cases ho; cases hk; rfl

/-- Following a bucket pointer visits written records of that bucket, in file
order, and ends. -/
theorem WellChained.exists_chain {f : ByteFile} {es : List Entry} (w : WellChained f es)
    {h : Nat} (hh : h < tdbMaxHashBucket) :
    ∃ L, Chained f (bucketPtr f h) L ∧ ∀ e ∈ L, e ∈ es ∧ dbHash e.key.str = h := by
  rcases w.bucket h hh with hz | ⟨e, he, hp, hash⟩
  · exact ⟨[], hz, by simp⟩
  · obtain ⟨L, hc, hall⟩ : ∃ L, Chained f e.off (e :: L) ∧
        ∀ x ∈ e :: L, x ∈ es ∧ dbHash x.key.str = h :=
      Linked.exists_chain Entry.off f.size
      (fun e hs => by have := (w.mem e hs.1).whole; simp only [keyRecordSize] at this; omega)
      (fun e hs => by
        rcases w.next e hs.1 with hn | ⟨e', he', hn, hlt, hash'⟩
        · exact .inl hn
        · exact .inr ⟨e', ⟨he', hash'.trans hs.2⟩, hn, hlt⟩)
      ⟨he, hash⟩
    exact ⟨e :: L, hp ▸ hc, hall⟩

end CachelibArchive.Tmdb
