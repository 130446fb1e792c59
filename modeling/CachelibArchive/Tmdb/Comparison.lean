import CachelibArchive.Tmdb.Requests

/-!
# What the comparison of the search tells apart

A store writes a key as it is and a query is compared as it is, but the record
is trimmed on the way. Keys that end in text survive that, and a database of
such keys finds exactly what was stored. A key that ends in a blank is compared
as another one: its own record is never found again.
-/

namespace CachelibArchive.Tmdb

/-- A key of 1 to 63 arbitrary bytes. -/
structure ShortKey where
  str : CString
  pos : 0 < str.length
  short : str.length < tdbMaxKeyLen

/-- A short key is its string. -/
theorem ShortKey.ext {a b : ShortKey} (h : a.str = b.str) : a = b := by
  cases a; cases b; cases h; rfl

instance : DecidableEq ShortKey := fun a b =>
  decidable_of_iff (a.str = b.str) ⟨ShortKey.ext, congrArg ShortKey.str⟩

theorem ShortKey.keyLength (k : ShortKey) : KeyLength k.str := ⟨k.pos, k.short.le⟩

/-! ## Two keys -/

/-- The test of the search on a record written for `a` in search of `b`. -/
def Compares (a b : CString) : Prop :=
  ∀ (pad : UInt32) (dataPtr nextPtr : Int),
    recordKey (keyRecordBytes a pad dataPtr nextPtr) = some b.bytes

/-- A new record compares as its key without the blanks at the end. -/
theorem recordKey_keyRecordBytes (k : CString) (pad : UInt32) (d n : Int) :
    recordKey (keyRecordBytes k pad d n) = some (trimmed k) := by
  obtain ⟨rest, hrest⟩ := keyField_eq k pad
  have hflag : (LittleEndian.ofInt 4 0).getLast? = some 0 := rfl
  rw [keyRecordBytes_eq, hrest]
  simpa only [List.append_assoc] using recordKey_eq (LittleEndian.length_ofInt 4 0) hflag k
    (rest ++ LittleEndian.ofInt 8 d ++ LittleEndian.ofInt 8 n)

/-- The comparison of the code is one of trimmed bytes. -/
theorem compares_iff (a b : CString) : Compares a b ↔ trimmed a = b.bytes := by
  simp only [Compares, recordKey_keyRecordBytes, Option.some.injEq, forall_const]

/-- The comparison tells two keys apart rightly, unless the one written ends in a blank
and the one searched is it, or is what trimming leaves of it. -/
theorem compares_exact_iff (a b : ShortKey) :
    (Compares a.str b.str ↔ a = b) ↔
      EndsInText a.str ∨ a ≠ b ∧ b.str.bytes ≠ trimmed a.str := by
  rw [compares_iff, ← trimmed_eq_iff]
  by_cases ha : trimmed a.str = a.str.bytes
  · refine iff_of_true ?_ (.inl ha)
    rw [ha]
    exact ⟨fun h => ShortKey.ext (CString.ext h), fun h => h ▸ rfl⟩
  · constructor
    · intro h
      have hne : a ≠ b := by
        rintro rfl
        exact ha (h.mpr rfl)
      exact .inr ⟨hne, fun hb => hne (h.mp hb.symm)⟩
    · rintro (hself | ⟨hne, hb⟩)
      · exact absurd hself ha
      · exact iff_of_false (Ne.symm hb) hne

/-! ## Databases built by inserts -/

/-- An insert the length checks let through, of a key of at most 63 bytes. -/
structure KeyInsert where
  key : ShortKey
  value : CString
  pad : UInt32
  accepted : value.length ≤ tdbMaxRecordLen

/-- Serve one insertion. -/
def insertKey (s : Records) (i : KeyInsert) : Option Records :=
  serve s (.store .insert i.key.str i.value i.pad)

/-- The search reports what was stored, and no chain of the index file meets two records
written for one key. -/
structure ExactSearch (s : Records) : Prop where
  exist : ∀ (k : ShortKey) (isWrite : Bool),
    (dbFindAndLock s.db k.str isWrite).1 = .ok .exist ↔ ∃ x ∈ s.slots, x.key = k.str
  single : ∀ h < tdbMaxHashBucket, ∀ xs : List Slot, (∀ x ∈ xs, x ∈ s.slots) →
    OffChain s.db.idx.file (bucketPtr s.db.idx.file h) (xs.map Slot.off) →
      (xs.map Slot.key).Nodup

/-- Every stored key ends in text, and none is stored twice. -/
structure TextKeys (s : Records) : Prop where
  intact : Intact s
  writable : Writable s.db
  text : ∀ x ∈ s.slots, EndsInText x.key
  nodup : (s.slots.map Slot.key).Nodup

/-- A database just created has no key. -/
theorem textKeys_noRecords : TextKeys noRecords := by
  refine ⟨intact_noRecords, ⟨rfl, rfl⟩, ?_, .nil⟩
  simp [noRecords]

/-- Among keys that end in text the search meets the ones that are there. -/
theorem TextKeys.met_iff {s : Records} (hs : TextKeys s) (k : CString) :
    Met s.slots k ↔ ∃ x ∈ s.slots, x.key = k := by
  constructor
  · rintro ⟨x, hx, _, hname⟩
    rw [(trimmed_eq_iff x.key).mpr (hs.text x hx)] at hname
    exact ⟨x, hx, CString.ext hname⟩
  · rintro ⟨x, hx, rfl⟩
    exact ⟨x, hx, rfl, (trimmed_eq_iff x.key).mpr (hs.text x hx)⟩

/-- Keys without blank ends are searched exactly. -/
theorem TextKeys.exactSearch {s : Records} (hs : TextKeys s) : ExactSearch s := by
  refine ⟨fun k w => (hs.intact.search_exist_iff k.str w).trans (hs.met_iff k.str), ?_⟩
  intro h _ xs hsub hc
  have hn : (xs.map Slot.off).Nodup := by
    have hdistinct := hc.nodup (fun a b hab => by rw [Int.natCast_inj.mp hab]) ?_
    · rw [List.nodup_map_iff (fun a b hab => Int.natCast_inj.mp hab)] at hdistinct
      exact hdistinct
    · intro o ho
      obtain ⟨x, hx, rfl⟩ := List.mem_map.mp ho
      have hpast := hs.intact.slotted.spread.past x.off (List.mem_map_of_mem (hsub x hx))
      simp only [tableEnd] at hpast
      omega
  refine hn.of_map.map_on fun x hx y hy hxy => ?_
  exact List.inj_on_of_nodup_map hs.nodup (hsub x hx) (hsub y hy) hxy

/-- What an insert does to an intact database. -/
theorem Intact.insertKey_cases {s t : Records} (hs : Intact s) (hw : Writable s.db) {i : KeyInsert}
    (h : insertKey s i = some t) :
    (Met s.slots i.key.str ∧ t.slots = s.slots ∧ SameFiles s.db t.db) ∨
      (¬Met s.slots i.key.str ∧ t.slots = s.slots ++ [⟨s.db.idx.file.size, i.key.str⟩] ∧
        Intact t ∧ Writable t.db) := by
  obtain ⟨_, ⟨r, hst⟩, hfit, hslots⟩ := serve_store h
  obtain ⟨db, slots⟩ := t
  dsimp only at hst hfit hslots
  subst hslots
  by_cases hmet : Met s.slots i.key.str
  · obtain ⟨db', hst', hsame⟩ := hs.insert_met i.key.keyLength i.accepted i.pad hmet
    obtain ⟨-, rfl⟩ := result_unique hst' hst
    exact .inl ⟨hmet, Records.grown_of_size_eq (congrArg ByteFile.size hsame.idx), hsame⟩
  · obtain ⟨db', hst', hstored⟩ := hs.store_unmet hw i.key.keyLength i.accepted i.pad hmet
      (.inl rfl)
    obtain ⟨-, rfl⟩ := result_unique hst' hst
    exact .inr ⟨hmet, hs.grown_stored i.key.keyLength hstored,
      hs.append i.key.keyLength hstored hfit, hstored.idxWritable, hstored.datWritable⟩

/-- Inserting a key that ends in text keeps the database to such keys. -/
theorem TextKeys.insertKey {s t : Records} (hs : TextKeys s) {i : KeyInsert}
    (hi : EndsInText i.key.str) (h : insertKey s i = some t) : TextKeys t := by
  obtain ⟨db, slots⟩ := t
  rcases hs.intact.insertKey_cases hs.writable h with
    ⟨_, rfl, hsame⟩ | ⟨hmet, rfl, hintact, hwritable⟩
  · exact ⟨hs.intact.congr hsame.idx hsame.dat, hsame.writable hs.writable, hs.text, hs.nodup⟩
  · refine ⟨hintact, hwritable, ?_, ?_⟩
    · intro x hx
      rcases List.mem_append.mp hx with hx | hx
      · exact hs.text x hx
      · rwa [List.mem_singleton.mp hx]
    · rw [List.map_append, List.nodup_append]
      refine ⟨hs.nodup, List.nodup_singleton _, ?_⟩
      intro a ha b hb
      obtain ⟨x, hx, rfl⟩ := List.mem_map.mp ha
      obtain rfl : b = i.key.str := by simpa using hb
      exact fun hxk => hmet ((hs.met_iff _).mpr ⟨x, hx, hxk⟩)

/-- A key that ends in a blank is stored and then not found. -/
theorem TextKeys.endsInText_of_exactSearch {s t : Records} (hs : TextKeys s) {i : KeyInsert}
    (h : Tmdb.insertKey s i = some t) (ht : ExactSearch t) : EndsInText i.key.str := by
  rcases hs.intact.insertKey_cases hs.writable h with
    ⟨⟨x, _, _, hname⟩, _⟩ | ⟨_, hslots, hintact, _⟩
  · exact trimmed_idem x.key hname
  · have hstored : ∃ x ∈ t.slots, x.key = i.key.str := by
      rw [hslots]
      exact ⟨_, List.mem_append_right _ List.mem_cons_self, rfl⟩
    obtain ⟨y, _, _, hname⟩ :=
      (hintact.search_exist_iff i.key.str true).mp ((ht.exist i.key true).mpr hstored)
    exact trimmed_idem y.key hname

/-- The comparison of two keys is exact unless the written one ends in a blank and the other
is it or its trimmed form, and searches are exact all along exactly the runs of inserts that
store no key ending in a blank. -/
theorem exactComparison_iff (a b : ShortKey) (is : List KeyInsert) :
    ((Compares a.str b.str ↔ a = b) ↔
      EndsInText a.str ∨ a ≠ b ∧ b.str.bytes ≠ trimmed a.str) ∧
    (Run.Always insertKey ExactSearch noRecords is ↔
      Run.EachStep insertKey (fun _ i => EndsInText i.key.str) noRecords is) :=
  ⟨compares_exact_iff a b, Run.always_iff_eachStep (fun _ hs => hs.exactSearch)
    (fun _ _ _ hs hi h => hs.insertKey hi h)
    (fun _ _ _ hs h ht => hs.endsInText_of_exactSearch h ht) textKeys_noRecords is⟩

/-- One letter, and the same with a space behind it. -/
def letterKey : ShortKey := ⟨⟨[97], by decide⟩, by decide, by decide⟩
def spacedKey : ShortKey := ⟨⟨[97, 32], by decide⟩, by decide, by decide⟩
def spacedInsert : KeyInsert := ⟨spacedKey, valueX.str, 0, by decide⟩

/-- The record of the spaced key passes for the letter and not for itself, and after its
insert it is not found. -/
theorem not_exactComparison_spaced :
    ¬(Compares spacedKey.str letterKey.str ↔ spacedKey = letterKey) ∧
    ¬(Compares spacedKey.str spacedKey.str ↔ spacedKey = spacedKey) ∧
    ¬Run.Always insertKey ExactSearch noRecords [spacedInsert] := by
  refine ⟨?_, ?_, ?_⟩
  · rw [compares_exact_iff]
    decide
  · rw [compares_exact_iff]
    decide
  · intro h
    obtain ⟨t, ht⟩ := Option.isSome_iff_exists.mp
      (by decide +kernel : (insertKey noRecords spacedInsert).isSome)
    have htext := textKeys_noRecords.endsInText_of_exactSearch ht (h.2 t ht).head
    exact absurd htext (by decide)

end CachelibArchive.Tmdb
