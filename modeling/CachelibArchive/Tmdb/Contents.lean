import CachelibArchive.Tmdb.Invariant

/-!
# The finite map two files represent

As long as nothing is deleted, the chain of a bucket is the list of all records
of that bucket in the order they were written, and no key is written twice. Such
a database represents a map when every record points at a data record; fetches
read the map, stores of absent keys extend it, and the other stores that write
nothing leave it alone.
-/

namespace CachelibArchive.Tmdb

/-- The records of a bucket, oldest first. -/
def inBucket (es : List Entry) (h : Nat) : List Entry := es.filter fun e => dbHash e.key.str = h

theorem mem_inBucket {es : List Entry} {h : Nat} {e : Entry} :
    e ∈ inBucket es h ↔ e ∈ es ∧ dbHash e.key.str = h := by
  simp [inBucket]

theorem inBucket_append_of_eq {es : List Entry} {h : Nat} {e : Entry}
    (hk : dbHash e.key.str = h) : inBucket (es ++ [e]) h = inBucket es h ++ [e] := by
  simp [inBucket, List.filter_append, hk]

theorem inBucket_append_of_ne {es : List Entry} {h : Nat} {e : Entry}
    (hk : dbHash e.key.str ≠ h) : inBucket (es ++ [e]) h = inBucket es h := by
  simp [inBucket, List.filter_append, hk]

/-- A sound database with every record in its chain, and no key twice. -/
structure Indexed (s : State) : Prop extends Sound s where
  chain : ∀ h < tdbMaxHashBucket,
    Chained s.db.idx.file (bucketPtr s.db.idx.file h) (inBucket s.written h)
  nodup : (s.written.map Entry.key).Nodup

/-- The database represents the map `m`. -/
structure Rep (s : State) (m : Key → Option Value) : Prop extends Indexed s where
  value : ∀ e ∈ s.written, ∃ v, m e.key = some v ∧ ∃ d : Nat,
    dataPtr s.db.idx.file e.off = d ∧ DataAt s.db.dat.file d v.str
  absent : ∀ k, (∀ e ∈ s.written, e.key ≠ k) → m k = none

/-- A record has been written for the key. -/
def Present (s : State) (k : Key) : Prop := ∃ e ∈ s.written, e.key = k

instance (s : State) (k : Key) : Decidable (Present s k) :=
  inferInstanceAs (Decidable (∃ e ∈ s.written, e.key = k))

/-! ## Searching -/

/-- The stops of a search for a key of bucket `h`. -/
abbrev stops (s : State) (h : Nat) : List Stop := (inBucket s.written h).map Entry.stop

theorem Indexed.bucketChain {s : State} (hi : Indexed s) {h : Nat} (hh : h < tdbMaxHashBucket) :
    BucketChain s h (inBucket s.written h) :=
  ⟨hi.chain h hh, fun _ he => mem_inBucket.mp he⟩

theorem Indexed.trail {s : State} (hi : Indexed s) (k : CString) :
    Trail s.db.idx.file (bucketPtr s.db.idx.file (dbHash k)) (stops s (dbHash k)) :=
  (hi.bucketChain (dbHash_lt k)).trail hi.toSound

theorem stops_absent {s : State} {k : Key} (hk : ∀ e ∈ s.written, e.key ≠ k) (h : Nat) :
    ∀ x ∈ stops s h, x.name ≠ k.str.bytes :=
  name_ne_of_key_ne fun e he => hk e (mem_inBucket.mp he).1

/-- The first record a search meets with a key is the only one there is. -/
theorem Indexed.find?_stops {s : State} (hi : Indexed s) {e : Entry} (he : e ∈ s.written) :
    (stops s (dbHash e.key.str)).find? (fun x => x.name = e.key.str.bytes) = some e.stop :=
  find?_stop (hi.nodup.sublist (List.filter_sublist.map _)) (mem_inBucket.mpr ⟨he, rfl⟩)

/-- A key without a record in its chain has no record. -/
theorem key_ne_of_inBucket {s : State} {k : Key}
    (hk : ∀ e ∈ inBucket s.written (dbHash k.str), e.key ≠ k) : ∀ e ∈ s.written, e.key ≠ k := by
  rintro e he rfl
  exact hk e (mem_inBucket.mpr ⟨he, rfl⟩) rfl

/-! ## Calls that write nothing -/

theorem Indexed.congr {s : State} (hi : Indexed s) {db : TDB}
    (hidx : db.idx.file = s.db.idx.file) (hdat : db.dat.file = s.db.dat.file) :
    Indexed ⟨db, s.written⟩ := by
  refine ⟨hi.toSound.congr hidx hdat, ?_, hi.nodup⟩
  rw [hidx]
  exact hi.chain

theorem Rep.congr {s : State} {m : Key → Option Value} (hr : Rep s m) {db : TDB}
    (hidx : db.idx.file = s.db.idx.file) (hdat : db.dat.file = s.db.dat.file) :
    Rep ⟨db, s.written⟩ m := by
  refine ⟨hr.toIndexed.congr hidx hdat, ?_, hr.absent⟩
  rw [hidx, hdat]
  exact hr.value

/-- A key is written or not; the map tells which. -/
theorem Rep.eq_none_iff {s : State} {m : Key → Option Value} (hr : Rep s m) {k : Key} :
    m k = none ↔ ∀ e ∈ s.written, e.key ≠ k := by
  refine ⟨?_, hr.absent k⟩
  rintro hm e he rfl
  obtain ⟨v, hv, _⟩ := hr.value e he
  rw [hm] at hv
  cases hv

/-- A fetch reads the map, also from an index that agrees on the bucket searched
and on every data pointer. -/
theorem Rep.fetch_of_trail {s : State} {m : Key → Option Value} (hr : Rep s m) {db : TDB} {k : Key}
    (htable : tableEnd ≤ db.idx.file.size)
    (ht : Trail db.idx.file (bucketPtr db.idx.file (dbHash k.str)) (stops s (dbHash k.str)))
    (hdata : ∀ e ∈ s.written, dataPtr db.idx.file e.off = dataPtr s.db.idx.file e.off)
    (hdat : db.dat.file = s.db.dat.file) :
    ∃ db', dbFetch db k.str = (.ok ((m k).map Value.str), db') ∧ SameFiles db db' := by
  by_cases hk : ∀ e ∈ s.written, e.key ≠ k
  · rw [hr.absent k hk]
    exact dbFetch_absent htable k.keyLength ht (stops_absent hk _)
  · push Not at hk
    obtain ⟨e, he, rfl⟩ := hk
    obtain ⟨v, hm, d, hd, hv⟩ := hr.value e he
    obtain ⟨db', hfetch, hsame⟩ := dbFetch_present htable e.key.keyLength ht (hr.find?_stops he)
    rw [← hdat] at hv
    obtain ⟨_, hval, _⟩ := fetchData_spec hv v.short
    refine ⟨db', ?_, hsame⟩
    rw [hfetch, show dataPtr db.idx.file e.stop.off = d from (hdata e he).trans hd, hval, hm]
    rfl

/-- A fetch reads the map. -/
theorem Rep.fetch {s : State} {m : Key → Option Value} (hr : Rep s m) (k : Key) :
    ∃ db, dbFetch s.db k.str = (.ok ((m k).map Value.str), db) ∧ SameFiles s.db db :=
  hr.fetch_of_trail hr.wellChained.table (hr.trail _) (fun _ _ => rfl) rfl

/-- Inserting a present key. -/
theorem Indexed.insert_present {s : State} (hi : Indexed s) {e : Entry} (he : e ∈ s.written)
    (v : Value) (pad : UInt32) :
    ∃ db, dbStore allAccepted s.db e.key.str v.str .insert pad = (.ok .ok, db) ∧
      SameFiles s.db db :=
  dbStore_present_insert hi.wellChained.table e.key.keyLength v.short.le pad (hi.trail _)
    allAccepted (hi.find?_stops he)

/-- Replacing an absent key. -/
theorem Indexed.replace_absent {s : State} (hi : Indexed s) {k : Key}
    (hk : ∀ e ∈ s.written, e.key ≠ k) (v : Value) (pad : UInt32) :
    ∃ db, dbStore allAccepted s.db k.str v.str .replace pad = (.ok .ok, db) ∧
      SameFiles s.db db :=
  dbStore_absent_replace hi.wellChained.table k.keyLength v.short.le pad (hi.trail _) allAccepted
    (stops_absent hk _)

/-! ## Storing an absent key -/

/-- The index file after a store of an absent key. -/
abbrev stored (s : State) (k : Key) (pad : UInt32) : ByteFile :=
  appendLinked s.db.idx.file (keyRecordBytes k.str pad s.db.dat.file.size 0)
    (linkTarget (dbHash k.str) (stops s (dbHash k.str)))

theorem Indexed.linkSite {s : State} (hi : Indexed s) (k : Key) :
    LinkSite s.db.idx.file s.written (dbHash k.str)
      (linkTarget (dbHash k.str) (stops s (dbHash k.str))) :=
  (hi.bucketChain (dbHash_lt _)).linkSite

theorem Indexed.store_absent {s : State} (hi : Indexed s) (hw : Writable s.db) {k : Key}
    (hk : ∀ e ∈ s.written, e.key ≠ k) (v : Value) {mode : StoreMode}
    (hmode : mode = .insert ∨ mode = .store) (pad : UInt32) :
    ∃ db, dbStore allAccepted s.db k.str v.str mode pad = (.ok .success, db) ∧
      Stored s.db db (stored s k pad) v.str :=
  dbStore_absent hi.wellChained.table k.keyLength v.short.le pad (hi.trail _) hw hi.dat
    (stops_absent hk _) hmode

/-- The chain of every bucket after the store. -/
theorem Indexed.chain_append {s : State} (hi : Indexed s) (k : Key) (pad : UInt32) {h : Nat}
    (hh : h < tdbMaxHashBucket) :
    Chained (stored s k pad) (bucketPtr (stored s k pad) h)
      (inBucket (s.written ++ [⟨s.db.idx.file.size, k⟩]) h) := by
  have hspread := hi.wellChained.spread
  have hfit := hi.fits_two_mul.1
  have hold (b : Nat) (hb : b < tdbMaxHashBucket) := chained_iff_offChain.mp (hi.chain b hb)
  have hsub (b : Nat) : (inBucket s.written b).map Entry.off ⊆ s.written.map Entry.off :=
    List.map_subset _ (List.filter_subset_self _)
  have heq {a e : Entry} (ha : a ∈ s.written) (he : e ∈ s.written) (ho : a.off = e.off) : a = e :=
    Entry.eq_of_off (hi.wellChained.mem a ha) (hi.wellChained.mem e he) ho
  have htarget : linkTarget (dbHash k.str) (stops s (dbHash k.str)) =
      linkOff (dbHash k.str) ((inBucket s.written (dbHash k.str)).map Entry.off) := by
    rw [linkTarget_eq, stops, List.map_map]
    rfl
  have hnew := nextPtr_appendLinked_new ((hi.linkSite k).le_size hi.wellChained) k.short.le pad
    s.db.dat.file.size
  rw [stored] at *
  rw [htarget] at hnew ⊢
  by_cases hk : dbHash k.str = h
  · subst hk
    rw [inBucket_append_of_eq (e := ⟨s.db.idx.file.size, k⟩) rfl]
    have hn : ((inBucket s.written (dbHash k.str)).map Entry.off).Nodup := by
      refine (hi.nodup.of_map.filter _).map_on fun a ha e he => ?_
      exact heq (mem_inBucket.mp ha).1 (mem_inBucket.mp he).1
    have hc := hspread.chain_concat hfit (hsub _) (hold _ hh) hh hn hnew
    rwa [chained_iff_offChain, List.map_append]
  · rw [inBucket_append_of_ne hk, chained_iff_offChain]
    refine hspread.chain_disjoint hfit (hsub h) (hold h hh) hh (dbHash_lt _) (Ne.symm hk) (hsub _) ?_
    intro o ho ho'
    obtain ⟨a, ha, rfl⟩ := List.mem_map.mp ho
    obtain ⟨e, he, hea⟩ := List.mem_map.mp ho'
    obtain rfl := heq (mem_inBucket.mp he).1 (mem_inBucket.mp ha).1 hea
    exact hk ((mem_inBucket.mp he).2.symm.trans (mem_inBucket.mp ha).2)

theorem Indexed.append {s : State} (hi : Indexed s) {k : Key} (hk : ∀ e ∈ s.written, e.key ≠ k)
    {pad : UInt32} {v : Value} {db : TDB} (hst : Stored s.db db (stored s k pad) v.str)
    (hfit : Fits db) : Indexed (s.appended k db) := by
  refine ⟨hi.toSound.append (hi.linkSite k) hst hfit, ?_, ?_⟩
  · intro h hh
    rw [hst.idx]
    exact hi.chain_append k pad hh
  · rw [List.map_append, List.nodup_append]
    refine ⟨hi.nodup, List.nodup_singleton _, ?_⟩
    intro a ha b hb
    obtain ⟨e, he, rfl⟩ := List.mem_map.mp ha
    obtain rfl : b = k := by simpa using hb
    exact hk e he

/-- Storing an absent key extends the map. -/
theorem Rep.append {s : State} {m : Key → Option Value} (hr : Rep s m) {k : Key}
    (hk : ∀ e ∈ s.written, e.key ≠ k) {pad : UInt32} {v : Value} {db : TDB}
    (hst : Stored s.db db (stored s k pad) v.str) (hfit : Fits db) :
    Rep (s.appended k db) (Function.update m k (some v)) := by
  have hsite := hr.linkSite k
  have hwf := hr.wellChained
  refine ⟨hr.toIndexed.append hk hst hfit, ?_, ?_⟩
  · intro e he
    rw [hst.idx]
    rcases List.mem_append.mp he with he | he
    · obtain ⟨w, hm, d, hd, hw⟩ := hr.value e he
      refine ⟨w, by rwa [Function.update_of_ne (hk e he)], d, ?_, hw.torn hst.dat.torn⟩
      rwa [dataPtr_appendLinked _ hwf hsite he]
    · obtain rfl := List.mem_singleton.mp he
      exact ⟨v, Function.update_self .., _,
        dataPtr_appendLinked_new (hsite.le_size hwf) k.short.le pad hr.fits_two_mul.2,
        hst.dat.record⟩
  · intro k' hk'
    have hne : k' ≠ k := by
      rintro rfl
      exact hk' _ (List.mem_append_right _ List.mem_cons_self) rfl
    rw [Function.update_of_ne hne]
    exact hr.absent k' fun e he => hk' e (List.mem_append_left _ he)

/-! ## Creation -/

/-- A created database represents the empty map. -/
theorem rep_created : Rep created fun _ => none := by
  refine ⟨⟨sound_created, fun h _ => bucketPtr_created h, .nil⟩, ?_, fun _ _ => rfl⟩
  simp [created]

/-! ## Runs of inserts and fetches -/

/-- Calls that replace nothing and find nothing to delete. -/
def InsertsOrMisses (s : State) : Op → Prop
  | .store mode _ _ _ => mode = .insert
  | .delete k => ¬Present s k
  | .fetch _ | .reopen _ => True

/-- What a call inserts under a key. -/
def Op.inserts (k : Key) : Op → Option Value
  | .store .insert k' v _ => if k' = k then some v else none
  | _ => none

/-- The value of the first insert of a key in a run. -/
def firstInsert (ops : List Op) (k : Key) : Option Value := ops.findSome? (Op.inserts k)

/-- A store in mode TDB_INSERT adds its value under a key the map did not hold. -/
theorem Rep.step_insert {s s' : State} {m : Key → Option Value} (hr : Rep s m) {k : Key}
    {v : Value} {pad : UInt32} (h : step s (.store .insert k v pad) = some s') :
    Rep s' fun k' => (m k').or (Op.inserts k' (.store .insert k v pad)) := by
  obtain ⟨hw, ⟨r, hst⟩, hfit, hrec⟩ := step_store h
  obtain ⟨db, written⟩ := s'
  simp only at hst hfit hrec
  subst hrec
  by_cases hk : ∀ e ∈ s.written, e.key ≠ k
  · obtain ⟨db', hst', hs⟩ := hr.store_absent hw hk v (.inl rfl) pad
    obtain ⟨-, rfl⟩ := result_unique hst' hst
    have hm : (fun k' => (m k').or (Op.inserts k' (.store .insert k v pad))) =
        Function.update m k (some v) := by
      funext k'
      by_cases hkk : k' = k
      · subst hkk
        simp [Op.inserts, hr.absent k' hk]
      · rw [Function.update_of_ne hkk, Op.inserts, if_neg (Ne.symm hkk), Option.or_none]
    rw [hr.recorded (hr.linkSite k) hs, hm]
    exact hr.append hk hs hfit
  · push Not at hk
    obtain ⟨e, he, rfl⟩ := hk
    obtain ⟨w, hmw, _⟩ := hr.value e he
    obtain ⟨db', hst', hs⟩ := hr.insert_present he v pad
    obtain ⟨-, rfl⟩ := result_unique hst' hst
    have hm : (fun k' => (m k').or (Op.inserts k' (.store .insert e.key v pad))) = m := by
      funext k'
      by_cases hkk : e.key = k'
      · subst hkk
        rw [hmw]
        rfl
      · rw [Op.inserts, if_neg hkk, Option.or_none]
    rw [recorded_of_size_eq (congrArg _ hs.idx), hm]
    exact hr.congr hs.idx hs.dat

/-- One call adds what it inserts under keys the map did not hold. -/
theorem Rep.step {s s' : State} {m : Key → Option Value} {op : Op} (hr : Rep s m)
    (hop : InsertsOrMisses s op) (h : step s op = some s') :
    Rep s' fun k => (m k).or (op.inserts k) := by
  have hnone : (fun k => (m k).or none) = m := by simp
  cases op with
  | store mode k v pad =>
    obtain rfl : mode = .insert := hop
    exact hr.step_insert h
  | delete k =>
    obtain ⟨_, ⟨r, hdel⟩, _, hrec⟩ := step_delete h
    obtain ⟨db, written⟩ := s'
    obtain ⟨db', hdel', hs⟩ := dbDelete_absent hr.wellChained.table k.keyLength (hr.trail k.str)
      (stops_absent (fun e he hkey => hop ⟨e, he, hkey⟩) _)
    obtain ⟨-, rfl⟩ := result_unique hdel' hdel
    obtain rfl : written = s.written := hrec
    simp only [Op.inserts, hnone]
    exact hr.congr hs.idx hs.dat
  | fetch k =>
    obtain ⟨⟨r, hf⟩, _, hrec⟩ := step_fetch h
    obtain ⟨db, written⟩ := s'
    obtain ⟨db', hf', hs⟩ := hr.fetch k
    obtain ⟨-, rfl⟩ := result_unique hf' hf
    obtain rfl : written = s.written := hrec
    simp only [Op.inserts, hnone]
    exact hr.congr hs.idx hs.dat
  | reopen readOnly =>
    obtain ⟨⟨db, written⟩, ht, hidx, hdat, hrec, _⟩ := step_reopen s readOnly
    obtain rfl := Option.some.inj (ht.symm.trans h)
    obtain rfl : written = s.written := hrec
    simp only [Op.inserts, hnone]
    exact hr.congr hidx hdat

/-- A run adds the first insert of every key the map did not hold. -/
theorem Rep.exec {s s' : State} {m : Key → Option Value} {ops : List Op} (hr : Rep s m)
    (hops : Run.EachStep Tmdb.step InsertsOrMisses s ops)
    (h : Run.exec Tmdb.step s ops = some s') : Rep s' fun k => (m k).or (firstInsert ops k) := by
  induction ops generalizing s m with
  | nil =>
    cases h
    simpa [firstInsert] using hr
  | cons op ops ih =>
    obtain ⟨t, ht, hrest⟩ := Run.exec_cons_eq_some.mp h
    obtain ⟨hop, hrestops⟩ := hops t ht
    have hi := ih (hr.step hop ht) hrestops hrest
    have hm : (fun k => ((m k).or (op.inserts k)).or (firstInsert ops k)) =
        fun k => (m k).or (firstInsert (op :: ops) k) := by
      funext k
      rw [Option.or_assoc, firstInsert, firstInsert, List.findSome?_cons]
      cases op.inserts k <;> rfl
    rwa [hm] at hi

/-- The database after inserts and fetches represents the first insert of every key. -/
theorem rep_of_run {ops : List Op} {s : State}
    (hops : Run.EachStep step InsertsOrMisses created ops)
    (h : Run.exec step created ops = some s) : Rep s (firstInsert ops) := by
  have hr := rep_created.exec hops h
  simpa using hr

end CachelibArchive.Tmdb
