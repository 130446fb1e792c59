import CachelibArchive.Tmdb.Contents

/-!
# Inserts that are cut off

The process may die between any two writes of an insert. What is on disk then is
what the first of its writes leave, and the next process opens the files with
mode "w". A cut before the last write leaves a torn tail in the data file and
perhaps a key record that nothing points to: the records linked since creation
are still the chains of the index, and their values are still in the data file.
-/

namespace CachelibArchive.Tmdb

/-! ## The first writes of a store -/

/-- Program order of the writes; a replacement writes `dataPtr` in the place of `keyRecord`. -/
def WriteSite.order : WriteSite → Nat
  | .patchNext => 0
  | .dataFlag => 1
  | .dataLen => 2
  | .dataBytes => 3
  | .dataNext => 4
  | .keyRecord | .dataPtr => 5
  | .link => 6

/-- Only the writes before place `n` reach the files. -/
def firstWrites (n : Nat) (site : WriteSite) : Bool := site.order < n

theorem firstWrites_of_le {n : Nat} (hn : 7 ≤ n) : firstWrites n = allAccepted := by
  funext site
  apply decide_eq_true
  cases site <;> simp only [WriteSite.order] <;> omega

/-- What an insert of an absent key leaves when it is cut off before its link. -/
structure Unlinked (db db' : TDB) : Prop where
  idx : db'.idx.file = db.idx.file ∨ ∃ record : List UInt8, record.length = 88 ∧
    db'.idx.file = db.idx.file.write db.idx.file.size record
  dat : Torn db.dat.file db'.dat.file

/-- The link is the last write. -/
theorem firstWrites_link {n : Nat} (hn : n < 7) : firstWrites n .link = false := by
  apply decide_eq_false
  simp only [WriteSite.order]
  omega

/-- Without the link, the index file has at most one record more at its end. -/
theorem Indexed.store_unlinked {s : State} (hi : Indexed s) {k : Key}
    (hk : ∀ e ∈ s.written, e.key ≠ k) (v : Value) (pad : UInt32) {n : Nat} (hn : n < 7) :
    ∃ db, dbStore (firstWrites n) s.db k.str v.str .insert pad = (.ok .success, db) ∧
      Unlinked s.db db := by
  obtain ⟨ret, db', dat', h, hret, hd, hst⟩ := dbStore_absent_eq hi.wellChained.table k.keyLength
    v.short.le pad (hi.trail k.str) (firstWrites n) (stops_absent hk _) (.inl rfl)
  have htorn := storeData_torn (firstWrites n) s.db.dat v.str
  rw [hd] at htorn
  have hkey := (storeKey_eq (firstWrites n) { db' with dat := dat' } ret _ hret k.str pad
    s.db.dat.file.size).1
  dsimp only at hkey
  rw [h.file, firstWrites_link hn, Bool.and_false, linkedFile_false] at hkey
  refine ⟨_, hst, ?_, htorn⟩
  split_ifs at hkey
  · exact .inr ⟨_, length_keyRecordBytes k.short.le .., hkey⟩
  · exact .inl hkey

/-! ## The records before a cut -/

/-- Everything inside the old index file reads as before. -/
theorem Unlinked.read {db db' : TDB} (h : Unlinked db db') {p n : Nat}
    (hp : p + n ≤ db.idx.file.size) : db'.idx.file.read p n = db.idx.file.read p n := by
  rcases h.idx with hsame | ⟨record, _, hmore⟩
  · rw [hsame]
  · rw [hmore, ByteFile.read_write_of_disjoint _ (.inl hp)]

theorem Unlinked.size {db db' : TDB} (h : Unlinked db db') :
    db'.idx.file.size = db.idx.file.size ∨ db'.idx.file.size = db.idx.file.size + 88 := by
  rcases h.idx with hsame | ⟨record, hlen, hmore⟩
  · exact .inl (congrArg ByteFile.size hsame)
  · right
    rw [hmore, ByteFile.size_write _ _ (by rintro rfl; cases hlen), hlen]
    omega

section

variable {s : State} {db : TDB} (hu : Unlinked s.db db)

include hu

theorem Sound.unlinked_record (hs : Sound s) {e : Entry} (he : e ∈ s.written) :
    db.idx.file.read (e.off + 4) 64 = s.db.idx.file.read (e.off + 4) 64 ∧
      nextPtr db.idx.file e.off = nextPtr s.db.idx.file e.off ∧
      dataPtr db.idx.file e.off = dataPtr s.db.idx.file e.off := by
  have hw := (hs.wellChained.mem e he).whole
  simp only [keyRecordSize] at hw
  refine ⟨hu.read (by omega), ?_, ?_⟩
  · rw [nextPtr, hu.read (by omega), nextPtr]
  · rw [dataPtr, hu.read (by omega), dataPtr]

theorem Sound.unlinked_bucket (hs : Sound s) {h : Nat} (hh : h < tdbMaxHashBucket) :
    bucketPtr db.idx.file h = bucketPtr s.db.idx.file h := by
  have ht := hs.wellChained.table
  rw [bucketPtr, hu.read, bucketPtr]
  simp only [tdbMaxHashBucket, tableEnd, bucketOff, tdbIndexHeaderLen, tdbOffSize] at *
  omega

/-- A record that nothing points to is no record of the invariant. -/
theorem Sound.unlinked (hs : Sound s) (hfit : Fits db) : Sound ⟨db, s.written⟩ := by
  refine ⟨hs.wellChained.frame ?_ ?_ ?_ ?_ ?_, hs.dat.trans hu.dat.size, hfit⟩
  · have hsize := hu.size
    dsimp only
    omega
  · intro e he
    have hspaced := hs.wellChained.size_spaced he
    have hsize := hu.size
    dsimp only
    omega
  · exact fun e he => (hs.unlinked_record hu he).1
  · exact fun e he => (hs.unlinked_record hu he).2.1
  · intro h hh
    rw [hs.unlinked_bucket hu hh]
    exact hs.wellChained.bucket h hh

/-- An insert that is cut off before its link leaves the map as it was. -/
theorem Rep.unlinked {m : Key → Option Value} (hr : Rep s m) (hfit : Fits db) :
    Rep ⟨db, s.written⟩ m := by
  refine ⟨⟨hr.toSound.unlinked hu hfit, ?_, hr.nodup⟩, ?_, hr.absent⟩
  · intro h hh
    rw [hr.unlinked_bucket hu hh]
    apply (hr.chain h hh).congr
    intro e he
    exact (hr.unlinked_record hu (mem_inBucket.mp he).1).2.1
  · intro e he
    obtain ⟨v, hm, d, hd, hv⟩ := hr.value e he
    refine ⟨v, hm, d, ?_, hv.torn hu.dat⟩
    rw [← hd]
    exact (hr.unlinked_record hu he).2.2

end

/-! ## Runs of inserts, any of them cut off -/

/-- An insert. If it is cut off, the writes before place `cut` of the program order are the
ones that reach the files. -/
structure Insertion where
  key : Key
  value : Value
  pad : UInt32
  cut : Option Nat

/-- Which writes of the insert reach the files. -/
def Insertion.accepts (i : Insertion) : WriteSite → Bool :=
  match i.cut with
  | none => allAccepted
  | some n => firstWrites n

/-- The link is the last write, so it is there only if all writes are. -/
def Insertion.Linked (i : Insertion) : Prop := i.accepts .link = true

instance (i : Insertion) : Decidable i.Linked := inferInstanceAs (Decidable (_ = true))

/-- The call on an open handle. -/
def Insertion.store (db : TDB) (i : Insertion) : Except Fault Status × TDB :=
  dbStore i.accepts db i.key.str i.value.str .insert i.pad

/-- One insert; one that is cut off is followed by a restart, which opens the files as it
finds them. -/
def insertStep (s : State) (i : Insertion) : Option State :=
  (settle (fun db => if i.Linked then s.recorded i.key db else s.written) (i.store s.db)).bind
    fun t => if i.cut.isSome then step t (.reopen false) else some t

/-- What an insert puts under a key the database does not hold. -/
def Insertion.puts (k : Key) (i : Insertion) : Option Value :=
  if i.key = k ∧ i.Linked then some i.value else none

/-- The value of the first insert of a key whose writes all reached the files. -/
def firstLinked (is : List Insertion) (k : Key) : Option Value := is.findSome? (Insertion.puts k)

theorem firstLinked_append (before after : List Insertion) (k : Key) :
    firstLinked (before ++ after) k = (firstLinked before k).or (firstLinked after k) :=
  List.findSome?_append

theorem firstLinked_cons (i : Insertion) (is : List Insertion) (k : Key) :
    firstLinked (i :: is) k = (i.puts k).or (firstLinked is k) := by
  rw [firstLinked, List.findSome?_cons, firstLinked]
  cases i.puts k <;> rfl

theorem firstLinked_of_ne {is : List Insertion} {k : Key} (h : ∀ i ∈ is, i.key ≠ k) :
    firstLinked is k = none := by
  apply List.findSome?_eq_none_iff.mpr
  intro i hi
  exact if_neg fun hp => h i hi hp.1

theorem Insertion.Linked.accepts {i : Insertion} (h : i.Linked) : i.accepts = allAccepted := by
  obtain ⟨key, value, pad, cut⟩ := i
  cases cut with
  | none => rfl
  | some n => exact firstWrites_of_le (of_decide_eq_true h)

/-- An insert without its link is one that was cut off. -/
theorem Insertion.accepts_of_not_linked {i : Insertion} (h : ¬i.Linked) :
    ∃ n < 7, i.cut = some n ∧ i.accepts = firstWrites n := by
  obtain ⟨key, value, pad, cut⟩ := i
  cases cut with
  | none => exact absurd rfl h
  | some n => exact ⟨n, Nat.not_le.mp fun hn => h (decide_eq_true hn), rfl, rfl⟩

/-- An insert returns, and adds its value if its key is new and its link was written. -/
theorem Rep.insertion {s : State} {m : Key → Option Value} (hr : Rep s m) (hw : Writable s.db)
    (i : Insertion) :
    ∃ r db, i.store s.db = (.ok r, db) ∧ (i.cut = none → Writable db) ∧
      (m i.key = none → r = .success) ∧
      (Fits db → Rep ⟨db, if i.Linked then s.recorded i.key db else s.written⟩
        fun k => (m k).or (i.puts k)) := by
  by_cases hk : ∀ e ∈ s.written, e.key ≠ i.key
  · by_cases hl : i.Linked
    · obtain ⟨db, hst, hs⟩ := hr.store_absent hw hk i.value (.inl rfl) i.pad
      rw [← hl.accepts] at hst
      refine ⟨.success, db, hst, fun _ => ⟨hs.idxWritable, hs.datWritable⟩, fun _ => rfl, ?_⟩
      intro hfit
      have hm : (fun k => (m k).or (i.puts k)) = Function.update m i.key (some i.value) := by
        funext k
        by_cases hkk : i.key = k
        · subst hkk
          rw [hr.absent i.key hk, Insertion.puts, if_pos ⟨rfl, hl⟩, Function.update_self,
            Option.none_or]
        · rw [Insertion.puts, if_neg fun hp => hkk hp.1, Function.update_of_ne (Ne.symm hkk),
            Option.or_none]
      rw [if_pos hl, hr.recorded (hr.linkSite i.key) hs, hm]
      exact hr.append hk hs hfit
    · obtain ⟨n, hn, hcut, hacc⟩ := Insertion.accepts_of_not_linked hl
      obtain ⟨db, hst, hu⟩ := hr.store_unlinked hk i.value i.pad hn
      rw [← hacc] at hst
      refine ⟨.success, db, hst, ?_, fun _ => rfl, ?_⟩
      · rw [hcut]
        rintro ⟨⟩
      · intro hfit
        have hm : (fun k => (m k).or (i.puts k)) = m := by
          funext k
          rw [Insertion.puts, if_neg fun hp => hl hp.2, Option.or_none]
        rw [if_neg hl, hm]
        exact hr.unlinked hu hfit
  · have hne : m i.key ≠ none := fun hnone => hk (hr.eq_none_iff.mp hnone)
    push Not at hk
    obtain ⟨e, he, hkey⟩ := hk
    have hfind := hr.find?_stops he
    rw [hkey] at hfind
    obtain ⟨db, hst, hs⟩ := dbStore_present_insert hr.wellChained.table i.key.keyLength
      i.value.short.le i.pad (hr.trail _) i.accepts hfind
    refine ⟨.ok, db, hst, fun _ => hs.writable hw, fun hnone => absurd hnone hne, ?_⟩
    intro _
    have hm : (fun k => (m k).or (i.puts k)) = m := by
      funext k
      by_cases hkk : i.key = k
      · subst hkk
        obtain ⟨v, hv⟩ := Option.ne_none_iff_exists'.mp hne
        rw [hv, Option.some_or]
      · rw [Insertion.puts, if_neg fun hp => hkk hp.1, Option.or_none]
    rw [recorded_of_size_eq (congrArg ByteFile.size hs.idx), ite_self, hm]
    exact hr.congr hs.idx hs.dat

/-- What one insert does to a database that represents `m`, restart included. -/
theorem Rep.insertStep {s s' : State} {m : Key → Option Value} {i : Insertion} (hr : Rep s m)
    (hw : Writable s.db) (h : Tmdb.insertStep s i = some s') :
    Rep s' (fun k => (m k).or (i.puts k)) ∧ Writable s'.db := by
  obtain ⟨⟨db, written⟩, hsettle, hrest⟩ := Option.bind_eq_some_iff.mp h
  obtain ⟨⟨r, hst⟩, hfit, hrec⟩ := settle_eq_some hsettle
  obtain ⟨r', db', hst', hwrite, _, hrep⟩ := hr.insertion hw i
  obtain ⟨-, rfl⟩ := result_unique hst' hst
  dsimp only at hrec
  subst hrec
  replace hrep := hrep hfit
  cases hcut : i.cut with
  | none =>
    rw [hcut] at hrest
    cases hrest
    exact ⟨hrep, hwrite hcut⟩
  | some n =>
    rw [hcut] at hrest
    obtain ⟨⟨db₂, written₂⟩, ht, hidx, hdat, hrec, hwi, hwd⟩ := step_reopen
      ⟨db', if i.Linked then s.recorded i.key db' else s.written⟩ false
    obtain rfl := Option.some.inj (ht.symm.trans hrest)
    obtain rfl : written₂ = _ := hrec
    exact ⟨hrep.congr hidx hdat, hwi, hwd⟩

/-- The database after a run of inserts holds the first value linked under every key. -/
theorem Rep.insertRun {s s' : State} {m : Key → Option Value} {is : List Insertion} (hr : Rep s m)
    (hw : Writable s.db) (h : Run.exec Tmdb.insertStep s is = some s') :
    Rep s' (fun k => (m k).or (firstLinked is k)) ∧ Writable s'.db := by
  induction is generalizing s m with
  | nil =>
    cases h
    exact ⟨by simpa [firstLinked] using hr, hw⟩
  | cons i is ih =>
    obtain ⟨t, ht, hrest⟩ := Run.exec_cons_eq_some.mp h
    obtain ⟨hrt, hwt⟩ := hr.insertStep hw ht
    obtain ⟨hrs, hws⟩ := ih hrt hwt hrest
    refine ⟨?_, hws⟩
    have hm : (fun k => ((m k).or (i.puts k)).or (firstLinked is k)) =
        fun k => (m k).or (firstLinked (i :: is) k) := by
      funext k
      rw [Option.or_assoc, firstLinked_cons]
    rwa [hm] at hrs

theorem rep_of_inserts {is : List Insertion} {s : State}
    (h : Run.exec insertStep created is = some s) : Rep s (firstLinked is) ∧ Writable s.db := by
  obtain ⟨hr, hw⟩ := rep_created.insertRun ⟨rfl, rfl⟩ h
  exact ⟨by simpa using hr, hw⟩

/-- What a fetch of the key returns. -/
def fetched (s : State) (k : Key) : Except Fault (Option CString) := (dbFetch s.db k.str).1

theorem Rep.fetched {s : State} {m : Key → Option Value} (hr : Rep s m) (k : Key) :
    fetched s k = .ok ((m k).map Value.str) := by
  obtain ⟨db, hf, _⟩ := hr.fetch k
  rw [Tmdb.fetched, hf]

/-- A database after inserts, any of them cut off. -/
structure Undamaged (is : List Insertion) (s : State) : Prop where
  /-- Every further insert returns, as far as it gets. -/
  returns : ∀ i : Insertion, ∃ r db, i.store s.db = (.ok r, db)
  /-- Whatever a fetch returned at any time of the run it still returns. -/
  kept : ∀ (before after : List Insertion) (t : State) (k : Key) (v : CString),
    is = before ++ after → Run.exec insertStep created before = some t →
      fetched t k = .ok (some v) → fetched s k = .ok (some v)
  /-- A completed insert of an absent key succeeds, and its value is fetched. -/
  completed : ∀ (before after : List Insertion) (i : Insertion) (t : State),
    is = before ++ i :: after → Run.exec insertStep created before = some t → i.cut = none →
      fetched t i.key = .ok none →
        (i.store t.db).1 = .ok .success ∧ fetched s i.key = .ok (some i.value.str)
  /-- If the only insert of a key is cut off, it is there in full or not at all. -/
  interrupted : ∀ (before after : List Insertion) (i : Insertion),
    is = before ++ i :: after → i.cut ≠ none → (∀ j ∈ before ++ after, j.key ≠ i.key) →
      fetched s i.key = .ok none ∨ fetched s i.key = .ok (some i.value.str)

/-- An insert that is cut off damages nothing, whatever follows it. -/
theorem undamaged_of_inserts {is : List Insertion} {s : State}
    (h : Run.exec insertStep created is = some s) : Undamaged is s := by
  obtain ⟨hr, hw⟩ := rep_of_inserts h
  refine ⟨?_, ?_, ?_, ?_⟩
  · intro i
    obtain ⟨r, db, hst, _⟩ := hr.insertion hw i
    exact ⟨r, db, hst⟩
  · rintro before after t k v rfl ht hv
    have hrt := (rep_of_inserts ht).1
    rw [hrt.fetched] at hv
    obtain ⟨w, hw', hwv⟩ := Option.map_eq_some_iff.mp (Except.ok.inj hv)
    rw [hr.fetched, firstLinked_append, hw', Option.some_or, Option.map_some, hwv]
  · rintro before after i t rfl ht hcut hnone
    obtain ⟨hrt, hwt⟩ := rep_of_inserts ht
    rw [hrt.fetched] at hnone
    have habs := Option.map_eq_none_iff.mp (Except.ok.inj hnone)
    obtain ⟨r, db, hst, _, hsucc, _⟩ := hrt.insertion hwt i
    have hlinked : i.Linked := by
      rw [Insertion.Linked, Insertion.accepts, hcut]
      rfl
    refine ⟨by rw [hst, hsucc habs], ?_⟩
    rw [hr.fetched, firstLinked_append, habs, Option.none_or, firstLinked_cons, Insertion.puts,
      if_pos ⟨rfl, hlinked⟩, Option.some_or, Option.map_some]
  · rintro before after i rfl _ honly
    have hb : firstLinked before i.key = none :=
      firstLinked_of_ne fun j hj => honly j (List.mem_append_left _ hj)
    have ha : firstLinked after i.key = none :=
      firstLinked_of_ne fun j hj => honly j (List.mem_append_right _ hj)
    rw [hr.fetched, firstLinked_append, firstLinked_cons, hb, ha, Option.none_or, Option.or_none,
      Insertion.puts]
    split
    · exact .inr rfl
    · exact .inl rfl

/-- A record without its link, the same key again, and a torn data record. -/
def cutRun : List Insertion :=
  [⟨keyOne, valueX, 0, some 6⟩, ⟨keyOne, valueY, 0, none⟩, ⟨keyTwo, valueX, 0, some 3⟩]

theorem undamaged_cutRun :
    ∃ s, Run.exec insertStep created cutRun = some s ∧ Undamaged cutRun s := by
  obtain ⟨s, hs⟩ := Option.isSome_iff_exists.mp
    (by decide +kernel : (Run.exec insertStep created cutRun).isSome)
  exact ⟨s, hs, undamaged_of_inserts hs⟩

end CachelibArchive.Tmdb
