import CachelibArchive.Tmdb.Requests

/-!
# The way of a search to a record

A search that finds a record has passed others of its bucket. Appending a record
changes one pointer, at the end of a chain, so it is never on that way, and it
does not matter for those records whether the writes of the new one succeed.
-/

namespace CachelibArchive.Tmdb

/-- Links to a slot of its bucket, past slots of other strings. -/
structure Lead (f : ByteFile) (k : CString) (A : List Slot) (x : Slot) : Prop where
  front : ∀ y ∈ A, y.stop.In f ∧ trimmed y.key ≠ k.bytes
  stop : x.stop.In f
  name : trimmed x.key = k.bytes
  chain : Linked.Chain (fun y : Slot => (y.off : Int)) (fun y => nextPtr f y.off) (x.off : Int)
    (bucketPtr f (dbHash k)) A
  length : A.length ≤ f.size

/-- A fetch that is led to a slot reads the data it points to. -/
theorem Lead.fetch {db : TDB} {k : CString} {A : List Slot} {x : Slot}
    (h : Lead db.idx.file k A x) (ht : tableEnd ≤ db.idx.file.size) (hk : KeyLength k) :
    (dbFetch db k).1 = (fetchData db.dat (dataPtr db.idx.file x.off)).1.map some := by
  obtain ⟨db', hs, hsearched, _, _, _, hoff⟩ := dbFindAndLock_at ht false
    (A := A.map Slot.stop) (x := x.stop)
    (List.forall_mem_map.mpr fun y hy => (h.front y hy).1) h.stop
    ((Linked.chain_map Slot.stop).mpr h.chain)
    (List.forall_mem_map.mpr fun y hy => (h.front y hy).2) h.name
    (by rw [List.length_map]; exact h.length)
  obtain ⟨db'', hfetch, _⟩ := dbFetch_of_exist hk hs hsearched.sameFiles hsearched.dat
  rw [hfetch, hoff]
  rfl

/-- The first slot the search meets. -/
theorem exists_of_met {xs : List Slot} {k : CString} (h : Met xs k) :
    ∃ A x B, slotsIn xs (dbHash k) = A ++ x :: B ∧ trimmed x.key = k.bytes ∧
      ∀ y ∈ A, trimmed y.key ≠ k.bytes := by
  obtain ⟨x, hx, hash, hname⟩ := h
  have hsome : ((slotsIn xs (dbHash k)).find? fun y => trimmed y.key = k.bytes).isSome := by
    rw [List.find?_isSome]
    exact ⟨x, mem_slotsIn.mpr ⟨hx, hash⟩, decide_eq_true hname⟩
  obtain ⟨y, hy⟩ := Option.isSome_iff_exists.mp hsome
  obtain ⟨hyname, A, B, hsplit, hA⟩ := List.find?_eq_some_iff_append.mp hy
  exact ⟨A, y, B, hsplit, of_decide_eq_true hyname, fun z hz => by simpa using hA z hz⟩

/-- The place a record is linked at is not on the way to one that is already there. -/
theorem Slotted.linkTarget_ne {f : ByteFile} {xs : List Slot} (w : Slotted f xs) {h b : Nat}
    (hh : h < tdbMaxHashBucket) (hb : b < tdbMaxHashBucket) {A B : List Slot} {x : Slot}
    (hsplit : slotsIn xs b = A ++ x :: B) :
    linkTarget h (slotStops xs h) ≠ bucketOff b ∧
      ∀ y ∈ A, linkTarget h (slotStops xs h) ≠ y.off + 80 := by
  have hpast {y : Slot} (hy : y ∈ xs) : tableEnd ≤ y.off :=
    w.spread.past y.off (List.mem_map_of_mem hy)
  have hinA {y : Slot} (hy : y ∈ A) : y ∈ slotsIn xs b := by
    rw [hsplit]
    exact List.mem_append_left _ hy
  rw [linkTarget_slotStops]
  rcases List.eq_nil_or_concat (slotsIn xs h) with hnil | ⟨Z, z, hz⟩
  · rw [hnil, List.map_nil, linkOff_nil]
    refine ⟨?_, fun y hy => ?_⟩
    · intro heq
      obtain rfl : h = b := by
        simp only [bucketOff, tdbOffSize] at heq
        omega
      rw [hsplit] at hnil
      simp at hnil
    · have hp := hpast (mem_slotsIn.mp (hinA hy)).1
      simp only [tdbMaxHashBucket, tableEnd, bucketOff, tdbIndexHeaderLen, tdbOffSize] at *
      omega
  · rw [List.concat_eq_append] at hz
    have hzmem : z ∈ slotsIn xs h := by
      rw [hz]
      simp
    have hp := hpast (mem_slotsIn.mp hzmem).1
    rw [hz, List.map_append, List.map_singleton, linkOff_concat]
    refine ⟨?_, fun y hy heq => ?_⟩
    · simp only [tdbMaxHashBucket, tableEnd, bucketOff, tdbIndexHeaderLen, tdbOffSize] at *
      omega
    · -- one slot would be both on the way and the last of its bucket
      have hy' := mem_slotsIn.mp (hinA hy)
      obtain rfl : z = y := List.inj_on_of_nodup_map w.nodup (mem_slotsIn.mp hzmem).1 hy'.1
        (by omega)
      obtain rfl : h = b := (mem_slotsIn.mp hzmem).2.symm.trans hy'.2
      have hn : (A ++ x :: B).Nodup := hsplit ▸ w.nodup.of_map.filter _
      refine (List.nodup_append.mp hn).2.2 z hy z ?_ rfl
      have hlast : (A ++ x :: B).getLast? = some z := by
        rw [← hsplit, hz, List.getLast?_concat]
      rw [List.getLast?_append_of_ne_nil _ (List.cons_ne_nil x B)] at hlast
      exact List.mem_of_getLast? hlast

section linked

variable {f : ByteFile} {xs : List Slot} (w : Slotted f xs) (record : List UInt8)
  (hasRecord hasLink : Bool) {h : Nat} (hh : h < tdbMaxHashBucket)

include w hh

/-- Every slot is the stop it was, whichever writes succeed. -/
theorem Slotted.stop_linkedFile {x : Slot} (hx : x ∈ xs) :
    x.stop.In (linkedFile f record (linkTarget h (slotStops xs h)) hasRecord hasLink) := by
  have hold := w.stop hx
  exact ⟨hold.pos, hold.whole.trans (size_le_linkedFile ..),
    (w.mem_linkedFile record hasRecord hasLink hh hx).recordKey⟩

/-- The way to a slot that was there is as it was, whichever writes succeed. -/
theorem Slotted.lead {k : CString} {A B : List Slot} {x : Slot}
    (hsplit : slotsIn xs (dbHash k) = A ++ x :: B) (hname : trimmed x.key = k.bytes)
    (hA : ∀ y ∈ A, trimmed y.key ≠ k.bytes) :
    Lead (linkedFile f record (linkTarget h (slotStops xs h)) hasRecord hasLink) k A x := by
  have hsite := site_slotStops xs hh
  have hmem {y : Slot} (hy : y ∈ A ++ x :: B) : y ∈ xs := by
    rw [← hsplit] at hy
    exact (mem_slotsIn.mp hy).1
  obtain ⟨hbucket, hnext⟩ := w.linkTarget_ne hh (dbHash_lt k) hsplit
  have hc := (w.trail (dbHash_lt k)).chain
  rw [slotStops, hsplit, Linked.chain_map] at hc
  have hlen := (w.trail (dbHash_lt k)).length_le
  rw [slotStops, List.length_map, hsplit, List.length_append] at hlen
  refine ⟨fun y hy => ⟨?_, hA y hy⟩, ?_, hname, ?_, ?_⟩
  · exact w.stop_linkedFile record hasRecord hasLink hh (hmem (List.mem_append_left _ hy))
  · exact w.stop_linkedFile record hasRecord hasLink hh (hmem (by simp))
  · rw [w.spread.bucketPtr_linkedFile record hasRecord hasLink hsite (dbHash_lt k) fun _ => hbucket]
    refine (Linked.chain_append_cons.mp hc).1.congr fun y hy => ?_
    exact w.spread.nextPtr_linkedFile record hasRecord hasLink hsite
      (List.mem_map_of_mem (hmem (List.mem_append_left _ hy))) fun _ => hnext y hy
  · exact (Nat.le_of_add_right_le hlen).trans (size_le_linkedFile ..)

end linked

end CachelibArchive.Tmdb
