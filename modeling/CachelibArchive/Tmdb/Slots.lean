import CachelibArchive.Tmdb.Invariant

/-!
# Records for any strings

The length checks of a store let every string of 1 to 64 bytes through, blanks
at its end included. As long as nothing is taken out of a chain, the chain of a
bucket is the list of the records written for it, and a search compares each of
them without the blanks its string ends in.
-/

namespace CachelibArchive.Tmdb

/-- The string `rtrim` leaves. -/
def trimmed (k : CString) : List UInt8 := k.bytes.rdropWhile isspace

/-- The last byte of the string is not blank. -/
def EndsInText (k : CString) : Prop := ∀ c ∈ k.bytes.getLast?, isspace c = false

instance (k : CString) : Decidable (EndsInText k) :=
  inferInstanceAs (Decidable (∀ c ∈ k.bytes.getLast?, isspace c = false))

/-- Trimming changes exactly the strings that end in a blank. -/
theorem trimmed_eq_iff (k : CString) : trimmed k = k.bytes ↔ EndsInText k := by
  rw [trimmed, List.rdropWhile_eq_self_iff]
  constructor
  · intro h c hc
    obtain ⟨hne, rfl⟩ := List.mem_getLast?_eq_getLast hc
    simpa using h hne
  · intro h hne
    simp [h _ (List.getLast?_eq_getLast_of_ne_nil hne ▸ Option.mem_some_self _)]

theorem trimmed_idem (k : CString) {x : CString} (h : trimmed k = x.bytes) : EndsInText x := by
  rw [← trimmed_eq_iff, trimmed, ← h]
  exact List.rdropWhile_idempotent ..

/-- A record written by a store: where it starts and the string it was written for. -/
structure Slot where
  off : Nat
  key : CString
  deriving DecidableEq

/-- The stop such a record is to a search. -/
def Slot.stop (x : Slot) : Stop := ⟨x.off, trimmed x.key⟩

/-- The record holds its string and a terminator, and no blank in front of them. -/
structure Slot.In (x : Slot) (f : ByteFile) : Prop where
  name : f.read (x.off + 4) (x.key.length + 1) = x.key.bytes ++ [0]
  front : f.byte (x.off + 3) = 0
  le : x.key.length ≤ tdbMaxKeyLen

/-- The records of a bucket, oldest first. -/
def slotsIn (xs : List Slot) (h : Nat) : List Slot := xs.filter fun x => dbHash x.key = h

theorem mem_slotsIn {xs : List Slot} {h : Nat} {x : Slot} :
    x ∈ slotsIn xs h ↔ x ∈ xs ∧ dbHash x.key = h := by
  simp [slotsIn]

theorem slotsIn_append_of_eq {xs : List Slot} {h : Nat} {x : Slot} (hx : dbHash x.key = h) :
    slotsIn (xs ++ [x]) h = slotsIn xs h ++ [x] := by
  simp [slotsIn, List.filter_append, hx]

theorem slotsIn_append_of_ne {xs : List Slot} {h : Nat} {x : Slot} (hx : dbHash x.key ≠ h) :
    slotsIn (xs ++ [x]) h = slotsIn xs h := by
  simp [slotsIn, List.filter_append, hx]

/-- The stops of a search in bucket `h`. -/
abbrev slotStops (xs : List Slot) (h : Nat) : List Stop := (slotsIn xs h).map Slot.stop

/-- The index file holds these records, and every bucket chains its own in file order. -/
structure Slotted (f : ByteFile) (xs : List Slot) : Prop where
  spread : Spread f.size (xs.map Slot.off)
  nodup : (xs.map Slot.off).Nodup
  mem : ∀ x ∈ xs, x.In f
  chain : ∀ h < tdbMaxHashBucket, OffChain f (bucketPtr f h) ((slotsIn xs h).map Slot.off)

/-! ## Searching -/

/-- Trimming stops in front of a byte that is not blank. -/
theorem rtrim_of_getLast {before : List UInt8} {c : UInt8} (hc : before.getLast? = some c)
    (hblank : isspace c = false) (s : List UInt8) :
    rtrim before s = some (s.rdropWhile isspace) := by
  have hself : before.rdropWhile isspace = before := by
    rw [List.rdropWhile_eq_self_iff]
    intro hne
    rw [List.getLast?_eq_getLast_of_ne_nil hne, Option.some.injEq] at hc
    simp [hc, hblank]
  have hne : before ≠ [] := by
    rintro rfl
    cases hc
  unfold rtrim
  by_cases hs : s.rdropWhile isspace = []
  · simp [hs, hself, hne]
  · rw [if_pos hs]

/-- A record whose flag does not end in a blank compares as its string without the blanks
at the end, all of them if there is nothing else. -/
theorem recordKey_eq {front : List UInt8} (hlen : front.length = tdbIntSize)
    (hlast : front.getLast? = some 0) (k : CString) (rest : List UInt8) :
    recordKey (front ++ (k.bytes ++ [0]) ++ rest) = some (trimmed k) := by
  have hdrop : (front ++ (k.bytes ++ [0]) ++ rest).drop tdbIntSize = k.bytes ++ 0 :: rest := by
    rw [List.append_assoc, List.drop_left' hlen, List.append_assoc]
    rfl
  have htake : (front ++ (k.bytes ++ [0]) ++ rest).take tdbIntSize = front := by
    rw [List.append_assoc, List.take_left' hlen]
  have hscan : (k.bytes ++ 0 :: rest).takeWhile (· ≠ 0) = k.bytes :=
    CString.ofBytes_append_nul k.nul_free
  rw [recordKey, hdrop, if_pos (by simp), hscan, htake, rtrim_of_getLast hlast rfl]
  rfl

theorem Slot.In.recordKey {x : Slot} {f : ByteFile} (h : x.In f) :
    recordKey (f.read x.off keyRecordSize) = some (trimmed x.key) := by
  have hle := h.le
  simp only [tdbMaxKeyLen] at hle
  obtain ⟨m, hm⟩ := Nat.exists_eq_add_of_le (show 4 + (x.key.length + 1) ≤ keyRecordSize by
    simp only [keyRecordSize]
    omega)
  have hlast : (f.read x.off tdbIntSize).getLast? = some 0 := by
    rw [tdbIntSize, f.read_add x.off 3 1, ByteFile.read_one, h.front, List.getLast?_concat]
  rw [hm, ByteFile.read_add, ByteFile.read_add, h.name]
  exact recordKey_eq (f.length_read x.off 4) hlast x.key _

theorem Slotted.stop {f : ByteFile} {xs : List Slot} (w : Slotted f xs) {x : Slot} (hx : x ∈ xs) :
    x.stop.In f := by
  have hmem := List.mem_map_of_mem (f := Slot.off) hx
  refine ⟨?_, w.spread.whole x.off hmem, (w.mem x hx).recordKey⟩
  have hp := w.spread.past x.off hmem
  simp only [tableEnd] at hp
  show 0 < x.off
  omega

/-- What a search in a bucket visits. -/
theorem Slotted.trail {f : ByteFile} {xs : List Slot} (w : Slotted f xs) {h : Nat}
    (hh : h < tdbMaxHashBucket) : Trail f (bucketPtr f h) (slotStops xs h) := by
  refine ⟨?_, ?_⟩
  · intro s hs
    obtain ⟨x, hx, rfl⟩ := List.mem_map.mp hs
    exact w.stop (mem_slotsIn.mp hx).1
  · have hc := w.chain h hh
    rw [OffChain, Linked.chain_map] at hc
    rw [Linked.chain_map]
    exact hc

/-- Where a store links a record of the bucket. -/
theorem linkTarget_slotStops (xs : List Slot) (h : Nat) :
    linkTarget h (slotStops xs h) = linkOff h ((slotsIn xs h).map Slot.off) := by
  rw [linkTarget_eq, List.map_map]
  rfl

theorem slotsIn_off_subset (xs : List Slot) (h : Nat) :
    (slotsIn xs h).map Slot.off ⊆ xs.map Slot.off :=
  List.map_subset _ (List.filter_subset_self _)

theorem site_slotStops (xs : List Slot) {h : Nat} (hh : h < tdbMaxHashBucket) :
    Site (xs.map Slot.off) (linkTarget h (slotStops xs h)) := by
  rw [linkTarget_slotStops]
  exact .linkOff hh (slotsIn_off_subset xs h)

/-! ## Writes -/

/-- Records that were there are as they were after one more is appended, whichever of its
writes succeed. -/
theorem Slotted.mem_linkedFile {f : ByteFile} {xs : List Slot} (w : Slotted f xs)
    (record : List UInt8) (hasRecord hasLink : Bool) {h : Nat} (hh : h < tdbMaxHashBucket)
    {x : Slot} (hx : x ∈ xs) :
    x.In (linkedFile f record (linkTarget h (slotStops xs h)) hasRecord hasLink) := by
  have hsite := site_slotStops xs hh
  have hmem := List.mem_map_of_mem (f := Slot.off) hx
  have hm := w.mem x hx
  have hle := hm.le
  simp only [tdbMaxKeyLen] at hle
  refine ⟨?_, ?_, hm.le⟩
  · rw [w.spread.read_linkedFile record hasRecord hasLink hsite hmem (by omega), hm.name]
  · have hfront := w.spread.read_linkedFile record hasRecord hasLink hsite hmem
      (i := 3) (n := 1) (by decide)
    rw [ByteFile.read_one, ByteFile.read_one, List.singleton_inj] at hfront
    rw [hfront, hm.front]

/-- The new record. -/
theorem slot_in_appendLinked {f : ByteFile} {target : Nat} (ht : target + 8 ≤ f.size) {k : CString}
    (hk : k.length ≤ tdbMaxKeyLen) (pad : UInt32) (d : Int) :
    (⟨f.size, k⟩ : Slot).In (appendLinked f (keyRecordBytes k pad d 0) target) := by
  refine ⟨name_appendLinked_new ht pad d, ?_, hk⟩
  have hflag := flag_appendLinked_new (k := k) ht pad d
  rw [LittleEndian.ofInt_zero] at hflag
  exact ByteFile.byte_of_read hflag rfl

/-- No record is in two buckets. -/
theorem slotsIn_disjoint {xs : List Slot} (hn : (xs.map Slot.off).Nodup) {h b : Nat} (hne : h ≠ b)
    {o : Nat} (ho : o ∈ (slotsIn xs b).map Slot.off) : o ∉ (slotsIn xs h).map Slot.off := by
  intro ho'
  obtain ⟨x, hx, rfl⟩ := List.mem_map.mp ho
  obtain ⟨y, hy, hyx⟩ := List.mem_map.mp ho'
  obtain ⟨hxs, hash⟩ := mem_slotsIn.mp hx
  obtain ⟨hys, hash'⟩ := mem_slotsIn.mp hy
  obtain rfl := List.inj_on_of_nodup_map hn hys hxs hyx
  exact hne (hash'.symm.trans hash)

/-- Storing an absent string adds its record to its chain. -/
theorem Slotted.append {f : ByteFile} {xs : List Slot} (w : Slotted f xs) {k : CString}
    (hk : k.length ≤ tdbMaxKeyLen) (hfit : 2 * f.size < 2 ^ 64) (pad : UInt32) (d : Int) :
    Slotted (appendLinked f (keyRecordBytes k pad d 0)
      (linkTarget (dbHash k) (slotStops xs (dbHash k)))) (xs ++ [⟨f.size, k⟩]) := by
  have hsite : Site (xs.map Slot.off) (linkTarget (dbHash k) (slotStops xs (dbHash k))) :=
    site_slotStops xs (dbHash_lt k)
  have hle := hsite.le_size w.spread
  have hnew := nextPtr_appendLinked_new hle hk pad d
  refine ⟨?_, ?_, ?_, ?_⟩
  · rw [size_appendLinked (length_keyRecordBytes hk pad d 0) hle, List.map_append]
    exact w.spread.append
  · rw [List.map_append, List.nodup_append]
    refine ⟨w.nodup, List.nodup_singleton _, ?_⟩
    intro o ho b hb
    have hw := w.spread.whole o ho
    obtain rfl : b = f.size := by simpa using hb
    simp only [keyRecordSize] at hw
    omega
  · intro x hx
    rcases List.mem_append.mp hx with hx | hx
    · exact w.mem_linkedFile (keyRecordBytes k pad d 0) true true (dbHash_lt k) hx
    · obtain rfl := List.mem_singleton.mp hx
      exact slot_in_appendLinked hle hk pad d
  · intro h hh
    rw [linkTarget_slotStops] at hnew ⊢
    by_cases hhash : dbHash k = h
    · subst hhash
      rw [slotsIn_append_of_eq (x := ⟨f.size, k⟩) rfl, List.map_append]
      exact w.spread.chain_concat hfit (slotsIn_off_subset xs _) (w.chain _ hh) hh
        (w.nodup.sublist (List.filter_sublist.map _)) hnew
    · rw [slotsIn_append_of_ne hhash]
      exact w.spread.chain_disjoint hfit (slotsIn_off_subset xs h) (w.chain h hh) hh (dbHash_lt k)
        (Ne.symm hhash) (slotsIn_off_subset xs _) fun o ho => slotsIn_disjoint w.nodup hhash ho

end CachelibArchive.Tmdb
