import CachelibArchive.Tmdb.Contents

/-!
# Calls that cannot fail

Inserts, fetches and re-openings of a database that represents a map. An insert adds
at most one record to either file, and nothing else makes a file longer; so as long as
both files stay below the largest offset every call returns, and its result is read
off the map.
-/

namespace CachelibArchive.Tmdb

/-- What an insert of the value adds to a file at most. -/
def Value.growth (v : Value) : Nat := v.str.length + keyRecordSize

/-- The map with a value under a key that had none. -/
def insertNew (m : Key → Option Value) (k : Key) (v : Value) : Key → Option Value :=
  Function.update m k (some ((m k).getD v))

theorem insertNew_of_some {m : Key → Option Value} {k : Key} {w : Value} (h : m k = some w)
    (v : Value) : insertNew m k v = m := by
  rw [insertNew, h, Option.getD_some, ← h, Function.update_eq_self]

theorem insertNew_of_none {m : Key → Option Value} {k : Key} (h : m k = none) (v : Value) :
    insertNew m k v = Function.update m k (some v) := by
  rw [insertNew, h, Option.getD_none]

/-- The handle is open on a database that represents the map, in files of at most so many
bytes. -/
structure Holds (db : TDB) (m : Key → Option Value) (n : Nat) : Prop where
  rep : ∃ written, Rep ⟨db, written⟩ m
  idx : db.idx.file.size ≤ n
  dat : db.dat.file.size ≤ n

variable {db : TDB} {m : Key → Option Value} {n : Nat}

/-- Calls that change no file keep what is held. -/
theorem Holds.congr (h : Holds db m n) {db' : TDB} (hidx : db'.idx.file = db.idx.file)
    (hdat : db'.dat.file = db.dat.file) : Holds db' m n := by
  obtain ⟨⟨written, hr⟩, hi, hd⟩ := h
  exact ⟨⟨written, hr.congr hidx hdat⟩, hidx ▸ hi, hdat ▸ hd⟩

/-- An insert succeeds on an absent key, returns on a present one, and keeps the first value. -/
theorem Holds.insert (h : Holds db m n) (hw : Writable db) {k : Key} {v : Value}
    (hroom : n + v.growth < 2 ^ 63) (pad : UInt32) :
    ∃ db', dbStore allAccepted db k.str v.str .insert pad =
        (.ok (if (m k).isSome then .ok else .success), db') ∧
      Holds db' (insertNew m k v) (n + v.growth) ∧ Writable db' := by
  obtain ⟨⟨written, hr⟩, hi, hd⟩ := h
  cases hm : m k with
  | some w =>
    have hpresent : ¬∀ e ∈ written, e.key ≠ k := by
      rw [← hr.eq_none_iff, hm]
      nofun
    push Not at hpresent
    obtain ⟨e, he, rfl⟩ := hpresent
    obtain ⟨db', hst, hs⟩ := hr.insert_present he v pad
    refine ⟨db', hst, ?_, hs.writable hw⟩
    rw [insertNew_of_some hm]
    exact ⟨⟨written, hr.congr hs.idx hs.dat⟩, by rw [hs.idx]; exact Nat.le_add_right_of_le hi,
      by rw [hs.dat]; exact Nat.le_add_right_of_le hd⟩
  | none =>
    have habsent := hr.eq_none_iff.mp hm
    obtain ⟨db', hst, hs⟩ := hr.store_absent hw habsent v (.inl rfl) pad
    have hidx : db'.idx.file.size = db.idx.file.size + 88 := by
      rw [hs.idx]
      exact size_appendLinked (length_keyRecordBytes k.short.le ..)
        ((hr.linkSite k).le_size hr.wellChained)
    have hdat : db'.dat.file.size = db.dat.file.size + v.str.length + 16 := hs.dat.size
    simp only [Value.growth, keyRecordSize] at hroom ⊢
    refine ⟨db', hst, ?_, ⟨hs.idxWritable, hs.datWritable⟩⟩
    rw [insertNew_of_none hm]
    exact ⟨⟨_, hr.append habsent hs ⟨by omega, by omega⟩⟩, by omega, by omega⟩

/-- A fetch returns what the map holds. -/
theorem Holds.fetch (h : Holds db m n) (k : Key) :
    ∃ db', dbFetch db k.str = (.ok ((m k).map Value.str), db') ∧ SameFiles db db' ∧
      Holds db' m n := by
  obtain ⟨written, hr⟩ := h.rep
  obtain ⟨db', hf, hs⟩ := hr.fetch k
  exact ⟨db', hf, hs, h.congr hs.idx hs.dat⟩

/-- Closing and opening again for writing. -/
theorem Holds.reopen (h : Holds db m n) :
    ∃ db', dbOpen (dbFree db) .write = some db' ∧ Holds db' m n ∧ Writable db' :=
  ⟨_, rfl, h.congr rfl rfl, ⟨rfl, rfl⟩⟩

end CachelibArchive.Tmdb
