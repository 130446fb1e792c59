import CachelibArchive.Tmdb.Requests
import CachelibArchive.Tmdb.Unlink

/-!
# Chains of records for any strings

A deletion sends a bucket wherever half a data pointer leads, so a bucket need
not chain all of its records. What is left to say of the pointers is local:
each is zero or leads to a record of the same bucket, further on in the file.
Following them ends, and meets records that hold the strings they were written
for. Buckets that have gone astray are left out.
-/

namespace CachelibArchive.Tmdb

/-- Following next pointers from an offset meets these records. -/
abbrev SlotChain (f : ByteFile) : Int → List Slot → Prop :=
  Linked.Chain (fun x : Slot => (x.off : Int)) (fun x => nextPtr f x.off) 0

/-- The index file holds these records, and every pointer is zero or leads to one of them: a
bucket to a record of its own, unless it has gone astray, a record to one of its bucket behind
it. -/
structure Threaded (astray : Int → Prop) (f : ByteFile) (xs : List Slot) : Prop where
  spread : Spread f.size (xs.map Slot.off)
  nodup : (xs.map Slot.off).Nodup
  mem : ∀ x ∈ xs, x.In f
  next : ∀ x ∈ xs, nextPtr f x.off = 0 ∨
    ∃ y ∈ xs, nextPtr f x.off = y.off ∧ x.off < y.off ∧ dbHash y.key = dbHash x.key
  bucket : ∀ h < tdbMaxHashBucket, astray (bucketPtr f h) ∨ bucketPtr f h = 0 ∨
    ∃ x ∈ xs, bucketPtr f h = x.off ∧ dbHash x.key = h

namespace Threaded

variable {astray : Int → Prop} {f : ByteFile} {xs : List Slot}

/-- What counts as astray may be said in other words. -/
theorem rebase (w : Threaded astray f xs) {astray' : Int → Prop}
    (h : ∀ b < tdbMaxHashBucket, astray (bucketPtr f b) → astray' (bucketPtr f b)) :
    Threaded astray' f xs :=
  ⟨w.spread, w.nodup, w.mem, w.next, fun b hb => (w.bucket b hb).imp_left (h b hb)⟩

/-! ## Chains -/

/-- Following a bucket meets records of the bucket, and ends. -/
theorem exists_chain (w : Threaded astray f xs) {h : Nat} (hh : h < tdbMaxHashBucket)
    (hlive : ¬astray (bucketPtr f h)) :
    ∃ L, SlotChain f (bucketPtr f h) L ∧ ∀ x ∈ L, x ∈ xs ∧ dbHash x.key = h := by
  rcases (w.bucket h hh).resolve_left hlive with hz | ⟨x, hx, hp, hash⟩
  · exact ⟨[], hz, by simp⟩
  · obtain ⟨L, hc, hall⟩ : ∃ L, SlotChain f x.off (x :: L) ∧
        ∀ y ∈ x :: L, y ∈ xs ∧ dbHash y.key = h :=
      Linked.exists_chain Slot.off f.size
        (fun y hy => by
          have hwhole := w.spread.whole y.off (List.mem_map_of_mem hy.1)
          simp only [keyRecordSize] at hwhole
          omega)
        (fun y hy => by
          rcases w.next y hy.1 with hz | ⟨z, hz, hlink, hlt, hash'⟩
          · exact .inl hz
          · exact .inr ⟨z, ⟨hz, hash'.trans hy.2⟩, hlink, hlt⟩)
        ⟨hx, hash⟩
    exact ⟨x :: L, by rwa [hp], hall⟩

theorem eq_of_off (w : Threaded astray f xs) {x y : Slot} (hx : x ∈ xs) (hy : y ∈ xs)
    (h : x.off = y.off) : x = y :=
  List.inj_on_of_nodup_map w.nodup hx hy h

theorem off_pos (w : Threaded astray f xs) {x : Slot} (hx : x ∈ xs) : 0 < x.off := by
  have hpast := w.spread.past x.off (List.mem_map_of_mem hx)
  simp only [tableEnd] at hpast
  omega

/-- Each record is a stop of the search. -/
theorem stop (w : Threaded astray f xs) {x : Slot} (hx : x ∈ xs) : x.stop.In f :=
  ⟨w.off_pos hx, w.spread.whole x.off (List.mem_map_of_mem hx), (w.mem x hx).recordKey⟩

/-- What a search visits. -/
theorem trail (w : Threaded astray f xs) {p : Int} {L : List Slot} (hc : SlotChain f p L)
    (hsub : ∀ x ∈ L, x ∈ xs) : Trail f p (L.map Slot.stop) := by
  refine ⟨List.forall_mem_map.mpr fun x hx => w.stop (hsub x hx), ?_⟩
  rw [Linked.chain_map]
  exact hc

/-- One pointer leads to one list of offsets. -/
theorem off_eq (w : Threaded astray f xs) {p : Int} {L M : List Slot} (hL : SlotChain f p L)
    (hsubL : ∀ x ∈ L, x ∈ xs) (hM : SlotChain f p M) (hsubM : ∀ x ∈ M, x ∈ xs) : L = M := by
  induction L generalizing p M with
  | nil =>
    cases M with
    | nil => rfl
    | cons y M =>
      have hpos := w.off_pos (hsubM y List.mem_cons_self)
      have heq : (0 : Int) = y.off := hL.symm.trans hM.1
      omega
  | cons x L ih =>
    cases M with
    | nil =>
      have hpos := w.off_pos (hsubL x List.mem_cons_self)
      have heq : (0 : Int) = x.off := Eq.trans (Eq.symm hM) hL.1
      omega
    | cons y M =>
      obtain rfl := w.eq_of_off (hsubL x List.mem_cons_self) (hsubM y List.mem_cons_self)
        (Int.natCast_inj.mp (hL.1.symm.trans hM.1))
      rw [ih hL.2 (fun z hz => hsubL z (List.mem_cons_of_mem x hz)) hM.2
        fun z hz => hsubM z (List.mem_cons_of_mem x hz)]

/-! ## Writes -/

/-- Writes that keep the strings and the next pointers, and lead no bucket astray. -/
theorem frame (w : Threaded astray f xs) {g : ByteFile} (hspread : Spread g.size (xs.map Slot.off))
    (hmem : ∀ x ∈ xs, x.In g) (hnext : ∀ x ∈ xs, nextPtr g x.off = nextPtr f x.off)
    (hbucket : ∀ h < tdbMaxHashBucket, bucketPtr g h = bucketPtr f h ∨ astray (bucketPtr g h) ∨
      bucketPtr g h = 0 ∨ ∃ x ∈ xs, bucketPtr g h = x.off ∧ dbHash x.key = h) :
    Threaded astray g xs := by
  refine ⟨hspread, w.nodup, hmem, fun x hx => ?_, fun h hh => ?_⟩
  · rw [hnext x hx]
    exact w.next x hx
  · rcases hbucket h hh with heq | hnew
    · rw [heq]
      exact w.bucket h hh
    · exact hnew

/-- A store links into its bucket, or behind a record of it. -/
theorem link_cases {k : CString} {L : List Slot} (hsub : ∀ x ∈ L, x ∈ xs ∧ dbHash x.key = dbHash k) :
    linkTarget (dbHash k) (L.map Slot.stop) = bucketOff (dbHash k) ∨
      ∃ x ∈ xs, dbHash x.key = dbHash k ∧
        linkTarget (dbHash k) (L.map Slot.stop) = x.off + 80 := by
  rcases List.eq_nil_or_concat L with rfl | ⟨A, a, rfl⟩
  · exact .inl rfl
  · rw [List.concat_eq_append] at hsub ⊢
    obtain ⟨ha, hash⟩ := hsub a (by simp)
    refine .inr ⟨a, ha, hash, ?_⟩
    simp [linkTarget, Slot.stop]

theorem site_link {k : CString} {L : List Slot}
    (hsub : ∀ x ∈ L, x ∈ xs ∧ dbHash x.key = dbHash k) :
    Site (xs.map Slot.off) (linkTarget (dbHash k) (L.map Slot.stop)) := by
  rcases link_cases hsub with h | ⟨x, hx, -, h⟩
  · rw [h]
    exact .bucket (dbHash_lt k)
  · rw [h]
    exact .record (List.mem_map_of_mem hx)

/-- Storing a string the search does not meet adds a record behind the chain. -/
theorem append (w : Threaded astray f xs) {k : CString} (hk : k.length ≤ tdbMaxKeyLen)
    (hfit : 2 * f.size < 2 ^ 64) {L : List Slot}
    (hsub : ∀ x ∈ L, x ∈ xs ∧ dbHash x.key = dbHash k) (pad : UInt32) (d : Int) :
    Threaded astray
      (appendLinked f (keyRecordBytes k pad d 0) (linkTarget (dbHash k) (L.map Slot.stop)))
      (xs ++ [⟨f.size, k⟩]) := by
  have hcases := link_cases hsub
  have hsite := site_link hsub
  generalize linkTarget (dbHash k) (L.map Slot.stop) = target at hcases hsite ⊢
  have hle := hsite.le_size w.spread
  have hlast {x : Slot} (hx : x ∈ xs ++ [⟨f.size, k⟩]) : x ∈ xs ∨ x = ⟨f.size, k⟩ := by
    simpa using hx
  have hwhole {x : Slot} (hx : x ∈ xs) : x.off + 88 ≤ f.size :=
    w.spread.whole x.off (List.mem_map_of_mem hx)
  refine ⟨?_, ?_, ?_, ?_, ?_⟩
  · rw [size_appendLinked (length_keyRecordBytes hk pad d 0) hle, List.map_append]
    exact w.spread.append
  · rw [List.map_append, List.nodup_append]
    refine ⟨w.nodup, List.nodup_singleton _, ?_⟩
    intro o ho b hb
    obtain ⟨x, hx, rfl⟩ := List.mem_map.mp ho
    obtain rfl : b = f.size := by simpa using hb
    have hx' := hwhole hx
    omega
  · intro x hx
    rcases hlast hx with hx | rfl
    · have hin := w.mem x hx
      have hshort := hin.le
      have hmem := List.mem_map_of_mem (f := Slot.off) hx
      simp only [tdbMaxKeyLen] at hshort
      refine ⟨?_, ?_, hin.le⟩
      · rw [w.spread.read_appendLinked _ hsite hmem (by omega), hin.name]
      · have hfront := w.spread.read_appendLinked (keyRecordBytes k pad d 0) hsite hmem
          (i := 3) (n := 1) (by decide)
        rw [ByteFile.read_one, ByteFile.read_one, List.singleton_inj] at hfront
        rw [hfront, hin.front]
    · exact slot_in_appendLinked hle hk pad d
  · intro x hx
    rcases hlast hx with hx | rfl
    · rw [w.spread.nextPtr_appendLinked _ hsite hfit (List.mem_map_of_mem hx)]
      split_ifs with ht
      · refine .inr ⟨⟨f.size, k⟩, by simp, rfl, ?_, ?_⟩
        · exact Nat.lt_of_lt_of_le (Nat.lt_add_of_pos_right (by decide)) (hwhole hx)
        · -- the link belongs to a record of the bucket, and that is this one
          have hpast := w.spread.past x.off (List.mem_map_of_mem hx)
          have hlt := dbHash_lt k
          rcases hcases with hbucket | ⟨y, hy, hash, hrecord⟩
          · simp only [tdbMaxHashBucket, tableEnd, bucketOff, tdbIndexHeaderLen, tdbOffSize] at *
            omega
          · obtain rfl := w.eq_of_off hx hy (by omega)
            exact hash.symm
      · rcases w.next x hx with hz | ⟨y, hy, h⟩
        · exact .inl hz
        · exact .inr ⟨y, List.mem_append_left _ hy, h⟩
    · exact .inl (nextPtr_appendLinked_new hle hk pad d)
  · intro b hb
    rw [w.spread.bucketPtr_appendLinked _ hsite hfit hb]
    split_ifs with ht
    · refine .inr (.inr ⟨⟨f.size, k⟩, by simp, rfl, ?_⟩)
      rcases hcases with hbucket | ⟨y, hy, _, hrecord⟩
      · simp only [bucketOff, tdbOffSize] at hbucket ht
        show dbHash k = b
        omega
      · have hpast := w.spread.past y.off (List.mem_map_of_mem hy)
        simp only [tdbMaxHashBucket, tableEnd, bucketOff, tdbIndexHeaderLen, tdbOffSize] at *
        omega
    · rcases w.bucket b hb with ha | hz | ⟨x, hx, h⟩
      · exact .inl ha
      · exact .inr (.inl hz)
      · exact .inr (.inr ⟨x, List.mem_append_left _ hx, h⟩)

section overwrite

variable (w : Threaded astray f xs) {x : Slot} (hx : x ∈ xs) (d : Nat)

include w hx

theorem size_overwriteData : (overwriteData f x.off d).size = f.size := by
  have hwhole := w.spread.whole x.off (List.mem_map_of_mem hx)
  simp only [keyRecordSize] at hwhole
  apply ByteFile.size_write_of_le
  rw [LittleEndian.length_ofInt]
  omega

/-- A replacement keeps every pointer. -/
theorem pointers_overwriteData :
    (∀ y ∈ xs, nextPtr (overwriteData f x.off d) y.off = nextPtr f y.off) ∧
      ∀ h < tdbMaxHashBucket, bucketPtr (overwriteData f x.off d) h = bucketPtr f h := by
  have hpast := w.spread.past x.off (List.mem_map_of_mem hx)
  refine ⟨fun y hy => ?_, fun h hh => bucketPtr_write_of_past (Nat.le_add_right_of_le hpast) hh⟩
  rw [nextPtr, overwriteData, ByteFile.read_write_of_disjoint, nextPtr]
  rw [LittleEndian.length_ofInt]
  rcases w.spread.apart (List.mem_map_of_mem hx) (List.mem_map_of_mem hy) with h | h | h <;> omega

/-- It keeps the strings of the other records. -/
theorem in_overwriteData_of_ne {y : Slot} (hy : y ∈ xs) (hne : x ≠ y) :
    y.In (overwriteData f x.off d) := by
  have hin := w.mem y hy
  have hle := hin.le
  simp only [tdbMaxKeyLen] at hle
  have happart : x.off + 88 ≤ y.off ∨ y.off + 88 ≤ x.off := by
    rcases w.spread.apart (List.mem_map_of_mem hx) (List.mem_map_of_mem hy) with h | h
    · exact absurd (w.eq_of_off hx hy h) hne
    · exact h
  have hread {p n : Nat} (h : p + n ≤ x.off + 68 ∨ x.off + 76 ≤ p) :
      (overwriteData f x.off d).read p n = f.read p n := by
    apply ByteFile.read_write_of_disjoint
    rwa [LittleEndian.length_ofInt]
  refine ⟨by rw [hread (by omega), hin.name], ?_, hin.le⟩
  have hfront := hread (p := y.off + 3) (n := 1) (by omega)
  rw [ByteFile.read_one, ByteFile.read_one, List.singleton_inj] at hfront
  rw [hfront, hin.front]

/-- The record replaced keeps its string unless the terminator is the byte behind the key array,
and the pointer written there does not begin with a zero. -/
theorem in_overwriteData_iff :
    x.In (overwriteData f x.off d) ↔ (x.key.length = tdbMaxKeyLen → d % 256 = 0) := by
  have hin := w.mem x hx
  have hle := hin.le
  have hfront : (overwriteData f x.off d).byte (x.off + 3) = 0 := by
    have hread : (overwriteData f x.off d).read (x.off + 3) 1 = f.read (x.off + 3) 1 :=
      ByteFile.read_write_of_disjoint _ (.inl (by omega))
    rw [ByteFile.read_one, ByteFile.read_one, List.singleton_inj] at hread
    rw [hread, hin.front]
  have hname (n : Nat) (hn : n ≤ 64) :
      (overwriteData f x.off d).read (x.off + 4) n = f.read (x.off + 4) n :=
    ByteFile.read_write_of_disjoint _ (.inl (by omega))
  have hlow : (overwriteData f x.off d).byte (x.off + 68) = 0 ↔ d % 256 = 0 := by
    have hself : (overwriteData f x.off d).read (x.off + 68) 8 =
        LittleEndian.ofNat 8 (d % 256 ^ 8) := by
      have hwrite := f.read_write_self (x.off + 68) (LittleEndian.ofInt 8 d)
      rwa [LittleEndian.length_ofInt, LittleEndian.ofInt_natCast] at hwrite
    have hbyte := ByteFile.byte_of_read (i := 0) hself rfl
    rw [Nat.add_zero] at hbyte
    rw [hbyte, ← UInt8.toNat_inj, UInt8.toNat_ofNat']
    simp only [UInt8.toNat_zero]
    omega
  simp only [tdbMaxKeyLen] at hle ⊢
  rcases Nat.lt_or_eq_of_le hle with hshort | hfull
  · refine iff_of_true ⟨?_, hfront, hin.le⟩ fun hfull => absurd hfull hshort.ne
    rw [hname _ hshort, hin.name]
  · have hold := hin.name
    rw [hfull, ByteFile.read_add] at hold
    have hkey := List.append_inj_left' hold rfl
    rw [← hlow, imp_iff_right hfull]
    constructor
    · intro hg
      have hnew := hg.name
      rw [hfull, ByteFile.read_add, ByteFile.read_one] at hnew
      exact List.singleton_inj.mp (List.append_inj_right' hnew rfl)
    · intro hzero
      refine ⟨?_, hfront, hin.le⟩
      rw [hfull, ByteFile.read_add, hname 64 le_rfl, hkey, ByteFile.read_one, hzero]

/-- A replacement that keeps the terminator keeps everything. -/
theorem overwritten (hkeep : x.key.length = tdbMaxKeyLen → d % 256 = 0) :
    Threaded astray (overwriteData f x.off d) xs := by
  obtain ⟨hnext, hbucket⟩ := w.pointers_overwriteData hx d
  refine w.frame ?_ (fun y hy => ?_) hnext fun h hh => .inl (hbucket h hh)
  · rw [w.size_overwriteData hx]
    exact w.spread
  · by_cases hxy : x = y
    · subst hxy
      exact (w.in_overwriteData_iff hx d).mpr hkeep
    · exact w.in_overwriteData_of_ne hx d hy hxy

end overwrite

/-- A deletion keeps the records, and every pointer but the one of bucket `h / 2`. -/
theorem unlinked (w : Threaded astray f xs) {x : Slot} (hx : x ∈ xs) {h : Nat}
    (hh : h < tdbMaxHashBucket)
    (hsplice : bucketPtr f h = x.off → astray (splicedPtr f h x.off) ∨ splicedPtr f h x.off = 0 ∨
      ∃ y ∈ xs, splicedPtr f h x.off = y.off ∧ dbHash y.key = h / 2) :
    Threaded astray (unlinkFile f x.off (unlinkTarget f h x.off)) xs := by
  have hmem {y : Slot} (hy : y ∈ xs) := List.mem_map_of_mem (f := Slot.off) hy
  refine w.frame (w.spread.unlink (hmem hx) hh) ?_ ?_ ?_
  · intro y hy
    have hin := w.mem y hy
    have hle := hin.le
    simp only [tdbMaxKeyLen] at hle
    refine ⟨?_, w.spread.front_unlink (hmem hx) hh (hmem hy) hin.front, hin.le⟩
    rw [w.spread.read_unlink (hmem hx) hh (hmem hy) (by decide) (.inl (by omega)), hin.name]
  · intro y hy
    exact congrArg _
      (w.spread.read_unlink (hmem hx) hh (hmem hy) (by decide) (.inr (by decide)))
  · intro b hb
    have hpast := w.spread.past x.off (hmem hx)
    by_cases hhead : bucketPtr f h = x.off
    · by_cases hb2 : b = h / 2
      · rw [hb2, bucketPtr_unlink_head hpast hh hhead]
        exact .inr (hsplice hhead)
      · exact .inl (bucketPtr_unlink_of_ne hpast hb hb2)
    · exact .inl (bucketPtr_unlink_of_not_head hpast hhead hb)

end Threaded

end CachelibArchive.Tmdb
