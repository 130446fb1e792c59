import CachelibArchive.Tmdb.Contents
import CachelibArchive.Tmdb.Unlink

/-!
# The deletion law

A deletion leaves its record in the chain unless it half overwrites the very
bucket it searched, which only happens at the head of bucket 0. There the bucket
is left pointing wherever the low half of a data pointer leads. The law holds in
the case that this is somewhere harmless: the search from there ends, meets no
key of the bucket, and leaves room for the link of the next insert.
-/

namespace CachelibArchive.Tmdb

/-- After a successful deletion the key is gone, every other key is fetched as
before, and the key can be inserted and fetched again. -/
def DeletionLaw (s : State) (k : Key) : Prop :=
  ∀ db, dbDelete s.db k.str = (.ok .success, db) →
    (dbFetch db k.str).1 = .ok none ∧
    (∀ k' : Key, k' ≠ k → (dbFetch db k'.str).1 = (dbFetch s.db k'.str).1) ∧
    ∀ (v : Value) (pad : UInt32), ∃ db',
      dbStore allAccepted db k.str v.str .insert pad = (.ok .success, db') ∧
      (dbFetch db' k.str).1 = .ok (some v.str)

/-- What bucket 0 leads to, in an index file after the deletion: stops without a
key of the bucket, the last of which has a next field of its own. -/
structure LeadsAway (g : ByteFile) (T : List Stop) : Prop where
  trail : Trail g (bucketPtr g 0) T
  names : ∀ x ∈ T, ∀ k : Key, dbHash k.str = 0 → x.name ≠ k.str.bytes
  last : ∀ A a, T = A ++ [a] →
    (bucketOff 0 + 8 ≤ a.off + 80 ∨ a.off + 88 ≤ bucketOff 0) ∧
    (∀ x ∈ A, x.off + 88 ≤ a.off + 80 ∨ a.off + 88 ≤ x.off) ∧
    (0 : UInt8) ∈ g.read (a.off + 4) 76

/-- The key is the only one of bucket 0, and its deletion leaves that bucket
pointing at a trail that leads away. -/
structure Detached (s : State) (k : Key) : Prop where
  hash : dbHash k.str = 0
  alone : ∀ e ∈ s.written, dbHash e.key.str = 0 → e.key = k
  leads : ∀ e ∈ s.written, e.key = k →
    ∃ T, LeadsAway (unlinkFile s.db.idx.file e.off (bucketOff 0)) T

/-! ## Linking behind a trail -/

/-- A terminator in front of the pointers hides whatever they hold. -/
theorem recordKey_append {p q q' : List UInt8} (hp : 4 ≤ p.length) (h0 : (0 : UInt8) ∈ p.drop 4) :
    recordKey (p ++ q) = recordKey (p ++ q') := by
  have htake (r : List UInt8) : ((p.drop 4 ++ r).takeWhile (· ≠ 0)) =
      (p.drop 4).takeWhile (· ≠ 0) := by
    rw [List.takeWhile_append, if_neg]
    intro hlen
    have hall := List.takeWhile_eq_self_iff.mp
      ((List.takeWhile_sublist _).eq_of_length hlen) 0 h0
    simp at hall
  simp only [recordKey, tdbIntSize, List.drop_append_of_le_length hp,
    List.take_append_of_le_length hp, htake, List.mem_append, h0, true_or]

section

variable {g : ByteFile} {record : List UInt8} {target : Nat}

/-- A stop whose record is not written to stays what it was. -/
theorem Stop.In.kept {x : Stop} (hx : x.In g) (hr : record.length = 88)
    (ht : target + 8 ≤ g.size) (hd : x.off + 88 ≤ target ∨ target + 8 ≤ x.off) :
    x.In (appendLinked g record target) ∧
      nextPtr (appendLinked g record target) x.off = nextPtr g x.off := by
  have hw := hx.whole
  simp only [keyRecordSize] at hw
  refine ⟨⟨hx.pos, ?_, ?_⟩, ?_⟩
  · rw [size_appendLinked hr ht, keyRecordSize]
    omega
  · rw [read_appendLinked (by simpa using hw) (by simpa using hd)]
    exact hx.name
  · rw [nextPtr, read_appendLinked (by omega) (by omega), nextPtr]

/-- The last stop keeps its name when a link is written into its next field. -/
theorem Stop.In.linked {a : Stop} (ha : a.In g) (hr : record.length = 88)
    (h0 : (0 : UInt8) ∈ g.read (a.off + 4) 76) : a.In (appendLinked g record (a.off + 80)) := by
  have hw := ha.whole
  simp only [keyRecordSize] at hw
  have hsplit (f : ByteFile) :
      f.read a.off keyRecordSize = f.read a.off 80 ++ f.read (a.off + 80) 8 :=
    f.read_add a.off 80 8
  have hkeep : (appendLinked g record (a.off + 80)).read a.off 80 = g.read a.off 80 :=
    read_appendLinked (by omega) (.inl le_rfl)
  refine ⟨ha.pos, ?_, ?_⟩
  · rw [size_appendLinked hr (by omega), keyRecordSize]
    omega
  · rw [hsplit, hkeep, ← ha.name, hsplit]
    apply recordKey_append
    · rw [ByteFile.length_read]
      decide
    · rwa [ByteFile.drop_read _ (by decide)]

end

theorem LeadsAway.target_le {g : ByteFile} {T : List Stop} (h : LeadsAway g T)
    (htable : tableEnd ≤ g.size) : linkTarget 0 T + 8 ≤ g.size := by
  simp only [tableEnd] at htable
  rcases List.eq_nil_or_concat T with rfl | ⟨A, a, rfl⟩
  · simp only [linkTarget, List.getLast?_nil, bucketOff, tdbIndexHeaderLen]
    omega
  · have hw := (h.trail.stops a (by simp)).whole
    simp only [keyRecordSize] at hw
    simp only [linkTarget, List.concat_eq_append, List.getLast?_append, List.getLast?_singleton,
      Option.some_or]
    omega

/-- An insert behind a trail that leads away makes its record the end of it. -/
theorem LeadsAway.append {g : ByteFile} {T : List Stop} (h : LeadsAway g T)
    (htable : tableEnd ≤ g.size) (hfit : 2 * g.size < 2 ^ 64) (k : Key) (pad : UInt32) (d : Int) :
    Trail (appendLinked g (keyRecordBytes k.str pad d 0) (linkTarget 0 T))
      (bucketPtr (appendLinked g (keyRecordBytes k.str pad d 0) (linkTarget 0 T)) 0)
      (T ++ [⟨g.size, k.str.bytes⟩]) := by
  have hr := length_keyRecordBytes k.short.le pad d 0
  have ht := h.target_le htable
  have hnew := (In_appendLinked_new htable ht k pad d).stop
  rcases List.eq_nil_or_concat T with rfl | ⟨A, a, rfl⟩
  · have hptr : bucketPtr (appendLinked g (keyRecordBytes k.str pad d 0) (linkTarget 0 [])) 0 =
        g.size := by
      rw [bucketPtr, show bucketOff 0 = linkTarget 0 [] from rfl, read_appendLinked_target,
        LittleEndian.toInt_ofInt_natCast hfit]
    rw [hptr]
    exact trail_cons.mpr ⟨rfl, hnew, trail_nil.mpr (nextPtr_appendLinked_new ht k.short.le pad d)⟩
  · rw [List.concat_eq_append] at h ht hnew ⊢
    obtain ⟨hbucket, hapart, h0⟩ := h.last A a rfl
    have ha := h.trail.stops a (by simp)
    have hw := ha.whole
    simp only [keyRecordSize] at hw
    have htarget : linkTarget 0 (A ++ [a]) = a.off + 80 := by simp [linkTarget]
    rw [htarget] at ht hnew ⊢
    have hptr : bucketPtr (appendLinked g (keyRecordBytes k.str pad d 0) (a.off + 80)) 0 =
        bucketPtr g 0 := by
      rw [bucketPtr, read_appendLinked, bucketPtr]
      · simp only [bucketOff, tdbIndexHeaderLen, tableEnd] at htable ⊢
        omega
      · simp only [bucketOff, tdbIndexHeaderLen] at hbucket ⊢
        omega
    have hkeep {x : Stop} (hx : x ∈ A) := (h.trail.stops x (by simp [hx])).kept hr ht
      (by have hd := hapart x hx; omega)
    rw [hptr]
    refine ⟨?_, h.trail.chain.concat (fun x hx => (hkeep hx).2) ?_
      (nextPtr_appendLinked_new ht k.short.le pad d)⟩
    · intro x hx
      rcases List.mem_append.mp hx with hx | hx
      · rcases List.mem_append.mp hx with hx | hx
        · exact (hkeep hx).1
        · obtain rfl := List.mem_singleton.mp hx
          exact ha.linked hr h0
      · obtain rfl := List.mem_singleton.mp hx
        exact hnew
    · rw [nextPtr, read_appendLinked_target, LittleEndian.toInt_ofInt_natCast hfit]

/-- The insert is fetched back. -/
theorem LeadsAway.insert {db : TDB} {T : List Stop} (h : LeadsAway db.idx.file T)
    (hw : Writable db) (htable : tableEnd ≤ db.idx.file.size)
    (hdat : tdbDataHeaderLen ≤ db.dat.file.size) (hidxfit : 2 * db.idx.file.size < 2 ^ 64)
    (hdatfit : 2 * db.dat.file.size < 2 ^ 64) {k : Key} (hk : dbHash k.str = 0) (v : Value)
    (pad : UInt32) :
    ∃ db', dbStore allAccepted db k.str v.str .insert pad = (.ok .success, db') ∧
      (dbFetch db' k.str).1 = .ok (some v.str) := by
  have habs : ∀ x ∈ T, x.name ≠ k.str.bytes := fun x hx => h.names x hx k hk
  have htrail := h.trail
  rw [← hk] at htrail
  obtain ⟨db', hst, hs⟩ := dbStore_absent htable k.keyLength v.short.le pad htrail hw hdat habs
    (.inl rfl)
  have hidx := hs.idx
  rw [hk] at hidx
  have hnew := h.append htable hidxfit k pad db.dat.file.size
  rw [← hidx, ← hk] at hnew
  have hfind : (T ++ [(⟨db.idx.file.size, k.str.bytes⟩ : Stop)]).find?
      (fun x => x.name = k.str.bytes) = some ⟨db.idx.file.size, k.str.bytes⟩ := by
    rw [List.find?_append, List.find?_eq_none.mpr (by simpa using habs)]
    simp
  have htable' : tableEnd ≤ db'.idx.file.size := by
    rw [hidx, appendLinked]
    exact htable.trans
      ((ByteFile.size_le_size_write _ _ _).trans (ByteFile.size_le_size_write _ _ _))
  have hptr : dataPtr db'.idx.file db.idx.file.size = (db.dat.file.size : Nat) := by
    rw [hidx]
    exact dataPtr_appendLinked_new (h.target_le htable) k.short.le pad hdatfit
  obtain ⟨db'', hfetch, _⟩ := dbFetch_present htable' k.keyLength hnew hfind
  obtain ⟨_, hval, _⟩ := fetchData_spec hs.dat.record v.short
  refine ⟨db', hst, ?_⟩
  rw [hfetch, hptr, hval]
  rfl

/-! ## Reading the index after a deletion -/

section

variable {s : State} {m : Key → Option Value} {e : Entry} {k : Key} {h : Nat}

/-- A bucket whose pointer survives is searched as before. -/
theorem Indexed.trail_unlink (hi : Indexed s) (he : e ∈ s.written) (hh : h < tdbMaxHashBucket)
    {b : Nat} (hb : b < tdbMaxHashBucket)
    (hkeep : bucketPtr (unlinkFile s.db.idx.file e.off (unlinkTarget s.db.idx.file h e.off)) b =
      bucketPtr s.db.idx.file b) :
    Trail (unlinkFile s.db.idx.file e.off (unlinkTarget s.db.idx.file h e.off))
      (bucketPtr (unlinkFile s.db.idx.file e.off (unlinkTarget s.db.idx.file h e.off)) b)
      (stops s b) := by
  rw [hkeep]
  have hrec {x : Entry} (hx : x ∈ inBucket s.written b) :=
    hi.wellChained.unlink_record he hh (mem_inBucket.mp hx).1
  exact Chained.trail ((hi.chain b hb).congr fun x hx => (hrec hx).2) fun x hx => (hrec hx).1

/-- Unless the key is the head of bucket 0, its own bucket survives its deletion. -/
theorem Indexed.bucket_unlink (hi : Indexed s) (he : e ∈ s.written)
    (hne : ¬(dbHash e.key.str = 0 ∧ bucketPtr s.db.idx.file 0 = e.off)) :
    bucketPtr (unlinkFile s.db.idx.file e.off
      (unlinkTarget s.db.idx.file (dbHash e.key.str) e.off)) (dbHash e.key.str) =
      bucketPtr s.db.idx.file (dbHash e.key.str) := by
  by_cases hhead : bucketPtr s.db.idx.file (dbHash e.key.str) = e.off
  · apply bucketPtr_unlink_of_ne (hi.wellChained.mem e he).past (dbHash_lt _)
    have hpos : dbHash e.key.str ≠ 0 := fun h0 => hne ⟨h0, h0 ▸ hhead⟩
    omega
  · exact bucketPtr_unlink_of_not_head (hi.wellChained.mem e he).past hhead (dbHash_lt _)

/-- Deleting a present key. -/
theorem Indexed.delete_present (hi : Indexed s) (hw : Writable s.db) (he : e ∈ s.written) :
    ∃ db, dbDelete s.db e.key.str = (.ok .success, db) ∧
      db.idx.file = unlinkFile s.db.idx.file e.off
        (unlinkTarget s.db.idx.file (dbHash e.key.str) e.off) ∧
      db.dat.file = s.db.dat.file ∧ Writable db :=
  dbDelete_present hi.wellChained.table e.key.keyLength (hi.trail _) hw (hi.find?_stops he)

/-- Then the key is still found. -/
theorem Indexed.fetch_deleted (hi : Indexed s) (he : e ∈ s.written)
    (hne : ¬(dbHash e.key.str = 0 ∧ bucketPtr s.db.idx.file 0 = e.off)) {db : TDB}
    (hidx : db.idx.file = unlinkFile s.db.idx.file e.off
      (unlinkTarget s.db.idx.file (dbHash e.key.str) e.off)) :
    (dbFetch db e.key.str).1 ≠ .ok none := by
  have ht := hi.trail_unlink he (dbHash_lt e.key.str) (dbHash_lt e.key.str)
    (hi.bucket_unlink he hne)
  rw [← hidx] at ht
  have htable : tableEnd ≤ db.idx.file.size := by
    rw [hidx]
    exact hi.wellChained.table.trans (size_le_unlinkFile ..)
  obtain ⟨db', hfetch, _⟩ := dbFetch_present htable e.key.keyLength ht (hi.find?_stops he)
  rw [hfetch]
  cases (fetchData db.dat (dataPtr db.idx.file e.stop.off)).1 <;> simp [Except.map]

/-- A deletion in the table changes no data pointer. -/
theorem Indexed.dataPtr_unlink (hi : Indexed s) (he : e ∈ s.written) {x : Entry}
    (hx : x ∈ s.written) : dataPtr (unlinkFile s.db.idx.file e.off (bucketOff 0)) x.off =
      dataPtr s.db.idx.file x.off := by
  have hp := (hi.wellChained.mem x hx).past
  have hlen := ByteFile.length_read s.db.idx.file (e.off + 72) 4
  have ha := hi.wellChained.apart he hx
  simp only [tableEnd] at hp
  rw [dataPtr, unlinkFile, ByteFile.read_write_of_disjoint, ByteFile.read_write_of_disjoint,
    dataPtr]
  · rw [LittleEndian.length_ofInt]
    rcases ha with rfl | ha | ha <;> omega
  · right
    rw [hlen]
    simp only [bucketOff, tdbIndexHeaderLen]
    omega

end

theorem Indexed.size_unlink_table {s : State} (hi : Indexed s) {e : Entry} (he : e ∈ s.written) :
    (unlinkFile s.db.idx.file e.off (bucketOff 0)).size = s.db.idx.file.size := by
  have hw := (hi.wellChained.mem e he).whole
  have ht := hi.wellChained.table
  simp only [keyRecordSize, tableEnd] at hw ht
  rw [size_unlinkFile (by omega), max_eq_left]
  simp only [bucketOff, tdbIndexHeaderLen]
  omega

/-- A key alone in bucket 0 is its head. -/
theorem Indexed.head_of_alone {s : State} (hi : Indexed s) {e : Entry} (he : e ∈ s.written)
    (hhash : dbHash e.key.str = 0)
    (halone : ∀ x ∈ s.written, dbHash x.key.str = 0 → x.key = e.key) :
    bucketPtr s.db.idx.file 0 = e.off := by
  have hmem : e ∈ inBucket s.written 0 := mem_inBucket.mpr ⟨he, hhash⟩
  have hc := hi.chain 0 (by decide)
  cases hL : inBucket s.written 0 with
  | nil => simp [hL] at hmem
  | cons x L =>
    obtain ⟨hx, hx0⟩ := mem_inBucket.mp (show x ∈ inBucket s.written 0 by simp [hL])
    rw [hL] at hc
    rw [hc.1, List.inj_on_of_nodup_map hi.nodup hx he (halone x hx hx0)]

/-- The law holds of a detached key. -/
theorem Rep.deletionLaw {s : State} {m : Key → Option Value} (hr : Rep s m) (hw : Writable s.db)
    {e : Entry} (he : e ∈ s.written) (hd : Detached s e.key) : DeletionLaw s e.key := by
  intro db₁ hdel₁
  obtain ⟨db, hdel, hidx, hdat, hdbw⟩ := hr.delete_present hw he
  obtain ⟨-, rfl⟩ := result_unique hdel hdel₁
  have hhash := hd.hash
  obtain ⟨T, hT⟩ := hd.leads e he rfl
  have hhead := hr.head_of_alone he hhash hd.alone
  have htarget : unlinkTarget s.db.idx.file 0 e.off = bucketOff 0 := if_pos hhead
  have htable : tableEnd ≤ db.idx.file.size := by
    rw [hidx]
    exact hr.wellChained.table.trans (size_le_unlinkFile ..)
  have htrail0 {k : Key} (hk : dbHash k.str = 0) :
      Trail db.idx.file (bucketPtr db.idx.file (dbHash k.str)) T := by
    rw [hk, hidx, hhash, htarget]
    exact hT.trail
  have habs {k : Key} (hk : dbHash k.str = 0) : (dbFetch db k.str).1 = .ok none := by
    obtain ⟨db', hfetch, _⟩ := dbFetch_absent htable k.keyLength (htrail0 hk)
      fun x hx => hT.names x hx k hk
    rw [hfetch]
  refine ⟨habs hhash, ?_, ?_⟩
  · intro k hne
    obtain ⟨db', hold, _⟩ := hr.fetch k
    rw [hold]
    by_cases hk : dbHash k.str = 0
    · have hnone : m k = none := hr.absent k fun x hx hkey =>
        hne (hkey.symm.trans (hd.alone x hx (hkey ▸ hk)))
      rw [habs hk, hnone]
      rfl
    · have hlt := dbHash_lt k.str
      have hkeep := bucketPtr_unlink_of_ne (f := s.db.idx.file) (h := dbHash e.key.str)
        (hr.wellChained.mem e he).past hlt (by omega)
      have ht := hr.trail_unlink he (dbHash_lt e.key.str) hlt hkeep
      rw [← hidx] at ht
      obtain ⟨db'', hnew, _⟩ := hr.fetch_of_trail htable ht (fun x hx => by
        rw [hidx, hhash, htarget, hr.dataPtr_unlink he hx]) hdat
      rw [hnew]
  · intro v pad
    have hlead : LeadsAway db.idx.file T := by
      rw [hidx, hhash, htarget]
      exact hT
    have hsize : db.idx.file.size = s.db.idx.file.size := by
      rw [hidx, hhash, htarget, hr.size_unlink_table he]
    have hfit := hr.fits_two_mul
    rw [← hsize, ← hdat] at hfit
    exact hlead.insert hdbw htable (hdat ▸ hr.dat) hfit.1 hfit.2 hhash v pad

/-- In every database reached by inserts and by deletions that find nothing, the
law holds of detached keys, and it holds of no key but the head of bucket 0. -/
theorem deletionLaw_of_detached {ops : List Op} {s : State}
    (hops : Run.EachStep step InsertsOrMisses created ops)
    (h : Run.exec step created ops = some s) {k : Key} (hk : Present s k) (hw : Writable s.db) :
    (Detached s k → DeletionLaw s k) ∧
      (DeletionLaw s k → dbHash k.str = 0 ∧
        ∃ e ∈ s.written, e.key = k ∧ bucketPtr s.db.idx.file 0 = e.off) := by
  have hr := rep_of_run hops h
  obtain ⟨e, he, rfl⟩ := hk
  refine ⟨hr.deletionLaw hw he, fun hlaw => ?_⟩
  obtain ⟨db, hdel, hidx, _⟩ := hr.delete_present hw he
  by_contra hne
  refine hr.fetch_deleted he (fun h0 => hne ⟨h0.1, e, he, rfl, h0.2⟩) hidx ?_
  exact (hlaw db hdel).1

/-- A decimal key of bucket 0. -/
def keyZero : Key :=
  ⟨⟨[54, 57, 51, 57, 52, 55], by decide⟩, by decide, by decide, by simp [isspace]⟩

/-- The database after one insert of that key. -/
def zeroStored : State :=
  (Run.exec step created [.store .insert keyZero valueX 0]).getD created

theorem exec_zeroStored :
    Run.exec step created [.store .insert keyZero valueX 0] = some zeroStored := by
  obtain ⟨s, hs⟩ := Option.isSome_iff_exists.mp
    (by decide +kernel : (Run.exec step created [.store .insert keyZero valueX 0]).isSome)
  rw [zeroStored, hs, Option.getD_some]

/-- Deleting the only key leaves 256 in bucket 0, where the table itself reads as a
record with an empty key and a zero next pointer. -/
theorem detached_zeroStored : Detached zeroStored keyZero := by
  have hwritten : zeroStored.written = [⟨tableEnd, keyZero⟩] := by decide +kernel
  have hg : LeadsAway (unlinkFile zeroStored.db.idx.file tableEnd (bucketOff 0)) [⟨256, []⟩] := by
    refine ⟨trail_cons.mpr ⟨by decide +kernel, ⟨by decide, by decide +kernel, by decide +kernel⟩,
      trail_nil.mpr (by decide +kernel)⟩, ?_, ?_⟩
    · intro x hx k _ hname
      obtain rfl := List.mem_singleton.mp hx
      have hp := k.pos
      rw [CString.length, ← hname] at hp
      exact absurd hp (by decide)
    · intro A a hT
      obtain ⟨rfl, rfl⟩ : A = [] ∧ a = ⟨256, []⟩ := by
        rcases A with _ | ⟨b, _ | ⟨c, A⟩⟩ <;> simp_all
      exact ⟨.inl (by decide), by simp, by decide +kernel⟩
  refine ⟨by decide +kernel, ?_, ?_⟩
  · intro e he _
    rw [hwritten, List.mem_singleton] at he
    rw [he]
  · intro e he _
    rw [hwritten, List.mem_singleton] at he
    rw [he]
    exact ⟨_, hg⟩

theorem deletionLaw_zeroStored : DeletionLaw zeroStored keyZero :=
  (deletionLaw_of_detached (.of_forall (by simp [InsertsOrMisses]) _) exec_zeroStored
    (by decide +kernel) (by decide +kernel)).1 detached_zeroStored

/-- The key 1 is still fetched after it has been deleted. -/
theorem deletionLaw_fails :
    Run.exec step created [.store .insert keyOne valueX 0] = some oneStored ∧
      Present oneStored keyOne ∧ ¬DeletionLaw oneStored keyOne := by
  refine ⟨exec_oneStored, by decide +kernel, fun hlaw => ?_⟩
  have hstatus : (dbDelete oneStored.db keyOne.str).1 = .ok .success := by decide +kernel
  have hfetch := (hlaw _ (Prod.ext hstatus rfl)).1
  revert hfetch
  decide +kernel

end CachelibArchive.Tmdb
