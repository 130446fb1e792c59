import CachelibArchive.Tmdb.Threaded

/-!
# Requests on a threaded index

What a request does to a database whose index is threaded is decided by the
records its bucket leads through: the first one that compares as the key, if
there is one, and else the last one. Searching a bucket that leads past the end
of the file ends the process.
-/

namespace CachelibArchive.Tmdb

/-- The first record of its bucket that compares as the string. -/
def FirstMatch (s : Records) (key : CString) (x : Slot) : Prop :=
  ∃ A B, SlotChain s.db.idx.file (bucketPtr s.db.idx.file (dbHash key)) (A ++ x :: B) ∧
    (∀ y ∈ A ++ x :: B, y ∈ s.slots) ∧ trimmed x.key = key.bytes ∧
    ∀ y ∈ A, trimmed y.key ≠ key.bytes

theorem FirstMatch.name {s : Records} {key : CString} {x : Slot} (h : FirstMatch s key x) :
    trimmed x.key = key.bytes := by
  obtain ⟨A, B, -, -, hname, -⟩ := h
  exact hname

/-- The bucket leads through records of the bucket to a zero pointer, and none of them compares
as the string. -/
structure NoMatch (s : Records) (key : CString) (L : List Slot) : Prop where
  chain : SlotChain s.db.idx.file (bucketPtr s.db.idx.file (dbHash key)) L
  sub : ∀ x ∈ L, x ∈ s.slots ∧ dbHash x.key = dbHash key
  ne : ∀ x ∈ L, trimmed x.key ≠ key.bytes

/-- A threaded index over the records written, a data file with its header, and no offset out of
range. -/
structure Navigable (astray : Int → Prop) (s : Records) : Prop where
  threaded : Threaded astray s.db.idx.file s.slots
  dat : tdbDataHeaderLen ≤ s.db.dat.file.size
  fits : Fits s.db

/-- A database just created leads nowhere. -/
theorem navigable_noRecords (astray : Int → Prop) : Navigable astray noRecords := by
  refine ⟨⟨⟨le_rfl, ?_, ?_, ?_⟩, .nil, ?_, ?_, fun h _ => .inr (.inl (bucketPtr_created h))⟩,
    le_rfl, sound_created.fits⟩ <;> simp [noRecords]

namespace Navigable

variable {astray : Int → Prop} {s : Records}

/-- Calls that change no file keep it navigable. -/
theorem congr (hs : Navigable astray s) {db : TDB} (hidx : db.idx.file = s.db.idx.file)
    (hdat : db.dat.file = s.db.dat.file) : Navigable astray ⟨db, s.slots⟩ := by
  refine ⟨?_, ?_, ?_⟩
  · rw [hidx]
    exact hs.threaded
  · rw [hdat]
    exact hs.dat
  · rw [Fits, hidx, hdat]
    exact hs.fits

/-- Only the heads of the buckets are judged. -/
theorem rebase (hs : Navigable astray s) {astray' : Int → Prop}
    (h : ∀ b < tdbMaxHashBucket, astray (bucketPtr s.db.idx.file b) →
      astray' (bucketPtr s.db.idx.file b)) : Navigable astray' s :=
  ⟨hs.threaded.rebase h, hs.dat, hs.fits⟩

theorem table (hs : Navigable astray s) : tableEnd ≤ s.db.idx.file.size := hs.threaded.spread.table

/-- The stop a search finds is the first match. -/
theorem firstMatch {L : List Slot} {key : CString} {t : Stop}
    (hc : SlotChain s.db.idx.file (bucketPtr s.db.idx.file (dbHash key)) L)
    (hsub : ∀ x ∈ L, x ∈ s.slots)
    (hf : (L.map Slot.stop).find? (fun t => t.name = key.bytes) = some t) :
    ∃ x, FirstMatch s key x ∧ x ∈ s.slots ∧ t = x.stop := by
  rw [List.find?_map, Option.map_eq_some_iff] at hf
  obtain ⟨x, hx, rfl⟩ := hf
  obtain ⟨hname, A, B, rfl, hA⟩ := List.find?_eq_some_iff_append.mp hx
  refine ⟨x, ⟨A, B, hc, hsub, of_decide_eq_true hname, fun y hy hne => ?_⟩, hsub x (by simp), rfl⟩
  exact Bool.false_ne_true ((Bool.not_eq_true' _).mp (hA y hy) ▸ decide_eq_true hne)

/-- What a search for the string of a first match finds. -/
theorem find?_of_firstMatch (hs : Navigable astray s) {key : CString} {x : Slot}
    (h : FirstMatch s key x) : x ∈ s.slots ∧ ∃ T,
      Trail s.db.idx.file (bucketPtr s.db.idx.file (dbHash key)) T ∧
        T.find? (fun t => t.name = key.bytes) = some x.stop := by
  obtain ⟨A, B, hc, hsub, hname, hA⟩ := h
  refine ⟨hsub x (by simp), _, hs.threaded.trail hc hsub, ?_⟩
  rw [List.find?_map, Option.map_eq_some_iff]
  refine ⟨x, List.find?_eq_some_iff_append.mpr ⟨decide_eq_true hname, A, B, rfl, fun y hy => ?_⟩,
    rfl⟩
  rw [Bool.not_eq_true']
  exact decide_eq_false (hA y hy)

/-- A fetch reads the data the first match points to. -/
theorem fetch_of_firstMatch (hs : Navigable astray s) {key : CString} (hk : KeyLength key)
    {x : Slot} (h : FirstMatch s key x) : (dbFetch s.db key).1 =
      (fetchData s.db.dat (dataPtr s.db.idx.file x.off)).1.map some := by
  obtain ⟨-, T, ht, hf⟩ := hs.find?_of_firstMatch h
  obtain ⟨db, hfind, hsearched, _, _, _, hoff⟩ := dbFindAndLock_exist hs.table false ht hf
  obtain ⟨db', hfetch, _⟩ := dbFetch_of_exist hk hfind hsearched.sameFiles hsearched.dat
  rw [hfetch, hoff]
  rfl

/-- In a bucket that has not gone astray the search meets the string or does not. -/
theorem match_or (hs : Navigable astray s) {key : CString}
    (hlive : ¬astray (bucketPtr s.db.idx.file (dbHash key))) :
    (∃ L, NoMatch s key L) ∨ ∃ x, FirstMatch s key x := by
  obtain ⟨L, hc, hsub⟩ := hs.threaded.exists_chain (dbHash_lt key) hlive
  cases hf : (L.map Slot.stop).find? (fun t => t.name = key.bytes) with
  | none =>
    exact .inl ⟨L, hc, hsub, fun x hx hname =>
      List.find?_eq_none.mp hf x.stop (List.mem_map_of_mem hx) (decide_eq_true hname)⟩
  | some t =>
    obtain ⟨x, hmatch, -⟩ := firstMatch hc (fun x hx => (hsub x hx).1) hf
    exact .inr ⟨x, hmatch⟩

/-- A search of a key without a match passes the whole list. -/
theorem trail_of_noMatch (hs : Navigable astray s) {key : CString} {L : List Slot}
    (h : NoMatch s key L) :
    Trail s.db.idx.file (bucketPtr s.db.idx.file (dbHash key)) (L.map Slot.stop) ∧
      ∀ t ∈ L.map Slot.stop, t.name ≠ key.bytes :=
  ⟨hs.threaded.trail h.chain fun x hx => (h.sub x hx).1, List.forall_mem_map.mpr h.ne⟩

/-! ## Buckets gone astray -/

section astray

variable (hpast : ∀ p, astray p → (s.db.idx.file.size : Int) ≤ p) {key : CString}

include hpast

/-- A search that is led past the end of the file ends the process. -/
theorem search_astray (hs : Navigable astray s)
    (h : astray (bucketPtr s.db.idx.file (dbHash key))) (isWrite : Bool) :
    ∃ db, dbFindAndLock s.db key isWrite = (.error .exit, db) := by
  have hle := hpast _ h
  obtain ⟨q, hq⟩ := Int.eq_ofNat_of_zero_le (Int.le_trans (Int.natCast_nonneg _) hle)
  rw [hq] at hle
  have hexit := dbFindAndLock_dangling hs.table isWrite (fun _ h => absurd h List.not_mem_nil)
    (Int.ofNat_le.mp hle) hq (fun _ h => absurd h List.not_mem_nil) (Nat.zero_le _)
  exact ⟨_, Prod.ext hexit rfl⟩

/-- An operation that has searched was not led astray. -/
theorem live_of_store (hs : Navigable astray s) (hk : KeyLength key) {value : CString}
    (hv : value.length ≤ tdbMaxRecordLen) {mode : StoreMode} (hmode : mode ≠ .other)
    {accepts : WriteSite → Bool} {pad : UInt32} {r : Status} {db : TDB}
    (h : dbStore accepts s.db key value mode pad = (.ok r, db)) :
    ¬astray (bucketPtr s.db.idx.file (dbHash key)) := by
  intro ha
  obtain ⟨db', hfind⟩ := hs.search_astray hpast ha true
  simp only [dbStore, hmode, hk.ok, hv.not_gt, hfind, if_false] at h
  cases h

/-- A deletion that returned did not go astray. -/
theorem live_of_delete (hs : Navigable astray s) (hk : KeyLength key) {r : Status} {db : TDB}
    (h : dbDelete s.db key = (.ok r, db)) : ¬astray (bucketPtr s.db.idx.file (dbHash key)) := by
  intro ha
  obtain ⟨db', hfind⟩ := hs.search_astray hpast ha true
  simp only [dbDelete, hk.ok, hfind, if_false] at h
  cases h

/-- A search led past the end of the file ends the process. -/
theorem fetch_astray (hs : Navigable astray s) (hk : KeyLength key)
    (ha : astray (bucketPtr s.db.idx.file (dbHash key))) :
    (dbFetch s.db key).1 = .error .exit := by
  obtain ⟨db', hfind⟩ := hs.search_astray hpast ha false
  simp only [dbFetch, hk.ok, hfind, if_false]

/-! ## What a request can do -/

/-- Everything a store can do, by its mode and by what the search meets. -/
theorem store_cases (hs : Navigable astray s) (hw : Writable s.db) {value : CString}
    {mode : StoreMode} {pad : UInt32} {r : Status} {db : TDB}
    (h : dbStore allAccepted s.db key value mode pad = (.ok r, db)) :
    SameFiles s.db db ∨ KeyLength key ∧ value.length ≤ tdbMaxRecordLen ∧
      ((mode = .insert ∨ mode = .store) ∧ (∃ L, NoMatch s key L ∧
          Stored s.db db (appendLinked s.db.idx.file (keyRecordBytes key pad s.db.dat.file.size 0)
            (linkTarget (dbHash key) (L.map Slot.stop))) value) ∨
        (mode = .replace ∨ mode = .store) ∧ ∃ x, FirstMatch s key x ∧
          Stored s.db db (overwriteData s.db.idx.file x.off s.db.dat.file.size) value) := by
  by_cases hlen : KeyLength key ∧ value.length ≤ tdbMaxRecordLen
  · obtain ⟨hk, hv⟩ := hlen
    by_cases hmode : mode = .other
    · subst hmode
      obtain ⟨-, rfl⟩ := result_unique (dbStore_other allAccepted s.db key value pad) h
      exact .inl ⟨rfl, rfl, rfl, rfl⟩
    have hlive := hs.live_of_store hpast hk hv hmode h
    obtain ⟨L, hc, hsub⟩ := hs.threaded.exists_chain (dbHash_lt key) hlive
    have ht := hs.threaded.trail hc fun x hx => (hsub x hx).1
    rcases dbStore_cases hs.table hk hv pad ht hw hs.dat h with
      hsame | ⟨hne, hmode, hstored⟩ | ⟨t, hf, hmode, hstored⟩
    · exact .inl hsame
    · exact .inr ⟨hk, hv, .inl ⟨hmode, L,
        ⟨hc, hsub, fun x hx => hne x.stop (List.mem_map_of_mem hx)⟩, hstored⟩⟩
    · obtain ⟨x, hmatch, -, rfl⟩ := firstMatch hc (fun x hx => (hsub x hx).1) hf
      exact .inr ⟨hk, hv, .inr ⟨hmode, x, hmatch, hstored⟩⟩
  · obtain ⟨-, rfl⟩ := result_unique (dbStore_refused allAccepted s.db hlen mode pad) h
    exact .inl ⟨rfl, rfl, rfl, rfl⟩

/-- Everything a deletion can do. -/
theorem delete_cases (hs : Navigable astray s) (hw : Writable s.db) {r : Status} {db : TDB}
    (h : dbDelete s.db key = (.ok r, db)) :
    SameFiles s.db db ∨ KeyLength key ∧ ∃ x, FirstMatch s key x ∧
      db.idx.file = unlinkFile s.db.idx.file x.off
        (unlinkTarget s.db.idx.file (dbHash key) x.off) ∧
      db.dat.file = s.db.dat.file := by
  by_cases hk : KeyLength key
  · rcases hs.match_or (hs.live_of_delete hpast hk h) with ⟨L, hno⟩ | ⟨x, hmatch⟩
    · obtain ⟨ht, hne⟩ := hs.trail_of_noMatch hno
      obtain ⟨db', hdel, hsame⟩ := dbDelete_absent hs.table hk ht hne
      obtain ⟨-, rfl⟩ := result_unique hdel h
      exact .inl hsame
    · obtain ⟨-, T, ht, hf⟩ := hs.find?_of_firstMatch hmatch
      obtain ⟨db', hdel, hidx, hdat, _⟩ := dbDelete_present hs.table hk ht hw hf
      obtain ⟨-, rfl⟩ := result_unique hdel h
      exact .inr ⟨hk, x, hmatch, hidx, hdat⟩
  · obtain ⟨-, rfl⟩ := result_unique (dbDelete_refused s.db hk) h
    exact .inl ⟨rfl, rfl, rfl, rfl⟩

/-- A fetch that returns changes no file. -/
theorem fetch_sameFiles (hs : Navigable astray s) {r : Option CString} {db : TDB}
    (h : dbFetch s.db key = (.ok r, db)) : SameFiles s.db db := by
  by_cases hk : KeyLength key
  · by_cases ha : astray (bucketPtr s.db.idx.file (dbHash key))
    · have hexit := hs.fetch_astray hpast hk ha
      rw [h] at hexit
      cases hexit
    · obtain ⟨L, hc, hsub⟩ := hs.threaded.exists_chain (dbHash_lt key) ha
      have hsame := dbFetch_sameFiles hs.table hk (hs.threaded.trail hc fun x hx => (hsub x hx).1)
      rwa [h] at hsame
  · rw [dbFetch_refused s.db hk] at h
    cases h
    exact ⟨rfl, rfl, rfl, rfl⟩

end astray

/-! ## What it leaves -/

/-- A store that was linked behind its bucket has added a record. -/
theorem append (hs : Navigable astray s) {key value : CString} (hk : KeyLength key)
    {pad : UInt32} {L : List Slot} (hno : NoMatch s key L) {db : TDB}
    (hst : Stored s.db db (appendLinked s.db.idx.file
      (keyRecordBytes key pad s.db.dat.file.size 0) (linkTarget (dbHash key) (L.map Slot.stop)))
      value) (hfit : Fits db) :
    s.grown key db = s.slots ++ [⟨s.db.idx.file.size, key⟩] ∧
      db.idx.file.size = s.db.idx.file.size + 88 ∧
      Navigable astray ⟨db, s.slots ++ [⟨s.db.idx.file.size, key⟩]⟩ := by
  have htwo : 2 * s.db.idx.file.size < 2 ^ 64 := by
    have hi := hs.fits.1
    omega
  have happ := hs.threaded.append hk.le htwo hno.sub pad s.db.dat.file.size
  have hsize : db.idx.file.size = s.db.idx.file.size + 88 := by
    rw [hst.idx, size_appendLinked (length_keyRecordBytes hk.le ..)
      ((Threaded.site_link hno.sub).le_size hs.threaded.spread)]
  rw [← hst.idx] at happ
  refine ⟨if_pos (by omega), hsize, happ, ?_, hfit⟩
  · show tdbDataHeaderLen ≤ db.dat.file.size
    rw [hst.dat.size]
    exact Nat.le_add_right_of_le (Nat.le_add_right_of_le hs.dat)

/-- A replacement that keeps the terminator of its string. -/
theorem overwritten (hs : Navigable astray s) {x : Slot} (hx : x ∈ s.slots)
    (hkeep : x.key.length = tdbMaxKeyLen → s.db.dat.file.size % 256 = 0) {value : CString}
    {db : TDB} (hst : Stored s.db db (overwriteData s.db.idx.file x.off s.db.dat.file.size) value)
    (hfit : Fits db) : Navigable astray ⟨db, s.slots⟩ := by
  refine ⟨?_, ?_, hfit⟩
  · show Threaded astray db.idx.file s.slots
    rw [hst.idx]
    exact hs.threaded.overwritten hx _ hkeep
  · show tdbDataHeaderLen ≤ db.dat.file.size
    rw [hst.dat.size]
    exact Nat.le_add_right_of_le (Nat.le_add_right_of_le hs.dat)

/-- A deletion that leaves bucket `h / 2` astray, empty or with a record of its own. -/
theorem unlinked (hs : Navigable astray s) {x : Slot} (hx : x ∈ s.slots) {h : Nat}
    (hh : h < tdbMaxHashBucket)
    (hsplice : bucketPtr s.db.idx.file h = x.off → astray (splicedPtr s.db.idx.file h x.off) ∨
      splicedPtr s.db.idx.file h x.off = 0 ∨
      ∃ y ∈ s.slots, splicedPtr s.db.idx.file h x.off = y.off ∧ dbHash y.key = h / 2)
    {db : TDB} (hidx : db.idx.file = unlinkFile s.db.idx.file x.off
      (unlinkTarget s.db.idx.file h x.off)) (hdat : db.dat.file = s.db.dat.file) (hfit : Fits db) :
    Navigable astray ⟨db, s.slots⟩ := by
  refine ⟨?_, ?_, hfit⟩
  · show Threaded astray db.idx.file s.slots
    rw [hidx]
    exact hs.threaded.unlinked hx hh hsplice
  · show tdbDataHeaderLen ≤ db.dat.file.size
    rw [hdat]
    exact hs.dat

end Navigable

end CachelibArchive.Tmdb
