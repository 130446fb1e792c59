import CachelibArchive.Core.Trace
import CachelibArchive.Tmdb.Process
import CachelibArchive.Tmdb.Requests

/-!
# The store as a ledger

What a program sees that inserts and fetches, with whatever strings. The ledger
lists the pairs written, oldest first. A search trims the strings in it and not
the string it is given, so a key that ends in a blank is written again each time
and never found; a value as long as the buffer is kept, and cannot be fetched.
-/

namespace CachelibArchive.Tmdb

/-! ## The abstract store -/

/-- The pairs written since creation, oldest first. -/
abbrev Ledger := List (CString × CString)

namespace Ledger

/-- The first pair of the bucket whose trimmed key is the string. -/
def search (l : Ledger) (key : CString) : Option CString :=
  (l.find? fun e => dbHash e.1 = dbHash key ∧ trimmed e.1 = key.bytes).map Prod.snd

/-- An insert writes where nothing is found. -/
def insert (l : Ledger) (key value : CString) : Ledger :=
  if l.search key = none then l ++ [(key, value)] else l

end Ledger

/-- One call of a program on its handle. -/
inductive HandleCall
  | insert (key value : CString) (pad : UInt32)
  | fetch (key : CString)
  /-- Close the handle and open it again with mode "w". -/
  | reopen

namespace HandleCall

/-- The call on the two files. -/
def onHandle (db : TDB) : HandleCall → Except Fault Reply × TDB
  | .insert key value pad =>
    let (r, db) := dbStore allAccepted db key value .insert pad
    (r.map .status, db)
  | .fetch key =>
    let (r, db) := dbFetch db key
    (r.map .value, db)
  | .reopen =>
    match dbOpen (dbFree db) .write with
    | none => (.error .exit, db)
    | some db => (.ok .opened, db)

/-- The call on the ledger. -/
def onLedger (l : Ledger) : HandleCall → Except Fault Reply × Ledger
  | .insert key value _ =>
    if Accepted key value then
      (.ok (.status (if l.search key = none then .success else .ok)), l.insert key value)
    else (.ok (.status .error), l)
  | .fetch key =>
    if KeyLength key then
      match l.search key with
      | none => (.ok (.value none), l)
      | some value =>
        if value.length = tdbMaxRecordLen then (.error .overrun, l)
        else (.ok (.value (some value)), l)
    else (.ok (.value none), l)
  | .reopen => (.ok .opened, l)

/-- A fetch leaves the ledger. -/
theorem onLedger_fetch (key : CString) (l : Ledger) : ((fetch key).onLedger l).2 = l := by
  simp only [onLedger]
  split_ifs <;> (try split) <;> (try split_ifs) <;> rfl

/-- What the call adds to a file at most. -/
def growth : HandleCall → Nat
  | .insert _ value _ => value.length + keyRecordSize
  | .fetch _ | .reopen => 0

end HandleCall

/-! ## The files hold the ledger -/

/-- A pair of the ledger, and where its key record starts. -/
structure Page where
  slot : Slot
  value : CString

/-- The pair of a page. -/
def Page.pair (p : Page) : CString × CString := (p.slot.key, p.value)

/-- The key record leads to the value. -/
def Page.In (p : Page) (db : TDB) : Prop :=
  p.value.length ≤ tdbMaxRecordLen ∧
    ∃ d : Nat, dataPtr db.idx.file p.slot.off = d ∧ DataAt db.dat.file d p.value

/-- The files hold these pages and no other records. -/
structure Paged (db : TDB) (ps : List Page) : Prop where
  intact : Intact ⟨db, ps.map Page.slot⟩
  pages : ∀ p ∈ ps, p.In db

/-- A handle open for writing on files of at most so many bytes that hold the ledger. -/
structure Keeps (db : TDB) (l : Ledger) (n : Nat) : Prop where
  paged : ∃ ps : List Page, Paged db ps ∧ l = ps.map Page.pair
  writable : Writable db
  idx : db.idx.file.size ≤ n
  dat : db.dat.file.size ≤ n

section pages

variable {db : TDB} {ps : List Page}

/-- The search of the index file is the search of the ledger. -/
theorem find?_pages (ps : List Page) (key : CString) :
    (slotStops (ps.map Page.slot) (dbHash key)).find? (fun s => s.name = key.bytes) =
      (ps.find? fun p => dbHash p.slot.key = dbHash key ∧ trimmed p.slot.key = key.bytes).map
        fun p => p.slot.stop := by
  rw [slotStops, slotsIn, List.find?_map, List.find?_filter, List.find?_map, Option.map_map]
  congr 1
  refine congrArg (List.find? · ps) (funext fun p => ?_)
  exact decide_eq_decide.mpr (and_congr decide_eq_true_iff decide_eq_true_iff)

theorem search_pages (ps : List Page) (key : CString) :
    Ledger.search (ps.map Page.pair) key =
      (ps.find? fun p => dbHash p.slot.key = dbHash key ∧ trimmed p.slot.key = key.bytes).map
        Page.value := by
  rw [Ledger.search, List.find?_map, Option.map_map]
  rfl

theorem met_iff_search (ps : List Page) (key : CString) :
    Met (ps.map Page.slot) key ↔ Ledger.search (ps.map Page.pair) key ≠ none := by
  rw [search_pages, Ne, Option.map_eq_none_iff, List.find?_eq_none, Met]
  simp

/-- Calls that change no file. -/
theorem Paged.congr (h : Paged db ps) {db' : TDB} (hidx : db'.idx.file = db.idx.file)
    (hdat : db'.dat.file = db.dat.file) : Paged db' ps := by
  refine ⟨h.intact.congr hidx hdat, fun p hp => ?_⟩
  obtain ⟨hlen, d, hd, hat⟩ := h.pages p hp
  exact ⟨hlen, d, by rw [hidx, hd], by rwa [hdat]⟩

/-- A store of a string that is not found adds a page. -/
theorem Paged.append (h : Paged db ps) {key value : CString} (hk : KeyLength key)
    (hv : value.length ≤ tdbMaxRecordLen) {pad : UInt32} {db' : TDB}
    (hst : Stored db db' (appendLinked db.idx.file
      (keyRecordBytes key pad db.dat.file.size 0)
      (linkTarget (dbHash key) (slotStops (ps.map Page.slot) (dbHash key)))) value)
    (hfit : Fits db') : Paged db' (ps ++ [⟨⟨db.idx.file.size, key⟩, value⟩]) := by
  have hs := h.intact
  have hsite := site_slotStops (ps.map Page.slot) (dbHash_lt key)
  have hgrown := hs.append hk hst hfit
  rw [hs.grown_stored hk hst] at hgrown
  refine ⟨by simpa using hgrown, fun p hp => ?_⟩
  rw [Page.In, hst.idx]
  rcases List.mem_append.mp hp with hp | hp
  · obtain ⟨hlen, d, hd, hat⟩ := h.pages p hp
    refine ⟨hlen, d, ?_, hat.torn hst.dat.torn⟩
    have hmem : p.slot.off ∈ (ps.map Page.slot).map Slot.off :=
      List.mem_map_of_mem (List.mem_map_of_mem hp)
    rw [hs.slotted.spread.dataPtr_appendLinked _ hsite hmem, hd]
  · obtain rfl := List.mem_singleton.mp hp
    exact ⟨hv, _, dataPtr_appendLinked_new (hsite.le_size hs.slotted.spread) hk.le pad
      hs.fits_two_mul.2, hst.dat.record⟩

end pages

section Keeps

variable {db : TDB} {l : Ledger} {n : Nat}

/-- A database just created holds the empty ledger. -/
theorem keeps_created : Keeps createdDb [] tableEnd := by
  have hsize : createdDb.idx.file.size = tableEnd ∧ createdDb.dat.file.size = tdbDataHeaderLen :=
    created_size
  refine ⟨⟨[], ⟨intact_noRecords, by simp⟩, rfl⟩, ⟨rfl, rfl⟩, hsize.1.le, ?_⟩
  rw [hsize.2]
  decide

theorem Keeps.congr (h : Keeps db l n) {db' : TDB} (hs : SameFiles db db') : Keeps db' l n := by
  obtain ⟨⟨ps, hps, hl⟩, hw, hidx, hdat⟩ := h
  exact ⟨⟨ps, hps.congr hs.idx hs.dat, hl⟩, hs.writable hw, hs.idx ▸ hidx, hs.dat ▸ hdat⟩

theorem Keeps.mono (h : Keeps db l n) (k : Nat) : Keeps db l (n + k) :=
  ⟨h.paged, h.writable, Nat.le_add_right_of_le h.idx, Nat.le_add_right_of_le h.dat⟩

/-- An accepted insert. -/
theorem Keeps.insert (h : Keeps db l n) {key value : CString} (ha : Accepted key value)
    (hroom : n + (value.length + keyRecordSize) < 2 ^ 63) (pad : UInt32) :
    ∃ db', dbStore allAccepted db key value .insert pad =
        (.ok (if l.search key = none then .success else .ok), db') ∧
      Keeps db' (l.insert key value) (n + (value.length + keyRecordSize)) := by
  obtain ⟨ps, hps, rfl⟩ := h.paged
  by_cases hmet : Met (ps.map Page.slot) key
  · have hfound := (met_iff_search ps key).mp hmet
    obtain ⟨db', hst, hsame⟩ := hps.intact.insert_met ha.1 ha.2 pad hmet
    refine ⟨db', by rw [hst, if_neg hfound], ?_⟩
    rw [Ledger.insert, if_neg hfound]
    exact (h.congr hsame).mono _
  · have habsent := not_not.mp ((met_iff_search ps key).not.mp hmet)
    obtain ⟨db', hst, hs⟩ :=
      hps.intact.store_unmet h.writable ha.1 ha.2 pad hmet (.inl rfl)
    have hle := (site_slotStops (ps.map Page.slot) (dbHash_lt key)).le_size
      hps.intact.slotted.spread
    have hidx : db'.idx.file.size = db.idx.file.size + 88 := by
      rw [hs.idx]
      exact size_appendLinked (length_keyRecordBytes ha.1.le ..) hle
    have hdat : db'.dat.file.size = db.dat.file.size + value.length + 16 := hs.dat.size
    have hi := h.idx
    have hd := h.dat
    simp only [keyRecordSize] at hroom ⊢
    refine ⟨db', by rw [hst, if_pos habsent], ?_⟩
    rw [Ledger.insert, if_pos habsent]
    refine ⟨⟨_, hps.append ha.1 ha.2 hs ⟨by omega, by omega⟩, ?_⟩,
      ⟨hs.idxWritable, hs.datWritable⟩, by omega, by omega⟩
    rw [List.map_append]
    rfl

/-- A fetch is a search of the ledger, and fails on a value that fills the buffer. -/
theorem Keeps.fetch (h : Keeps db l n) (key : CString) :
    ((HandleCall.fetch key).onHandle db).1 = ((HandleCall.fetch key).onLedger l).1 ∧
      Keeps ((HandleCall.fetch key).onHandle db).2 l n := by
  obtain ⟨ps, hps, rfl⟩ := h.paged
  have hsame : SameFiles db (dbFetch db key).2 := hps.intact.fetch_sameFiles key
  refine ⟨?_, h.congr hsame⟩
  simp only [HandleCall.onHandle, HandleCall.onLedger]
  by_cases hk : KeyLength key
  · rw [if_pos hk, search_pages]
    have htrail := hps.intact.trail key
    cases hf : ps.find? fun p =>
        dbHash p.slot.key = dbHash key ∧ trimmed p.slot.key = key.bytes with
    | none =>
      have habsent : ¬Met (ps.map Page.slot) key := by
        rw [met_iff_search, search_pages, hf]
        simp
      obtain ⟨db', hfetch, _⟩ := dbFetch_absent hps.intact.table hk htrail
        (name_ne_of_not_met habsent)
      rw [hfetch]
      rfl
    | some p =>
      have hstop := find?_pages ps key
      rw [hf, Option.map_some] at hstop
      obtain ⟨hlen, d, hd, hat⟩ := hps.pages p (List.mem_of_find?_eq_some hf)
      obtain ⟨db', hfetch, _⟩ := dbFetch_present hps.intact.table hk htrail hstop
      have hptr : dataPtr db.idx.file p.slot.stop.off = d := hd
      dsimp only [Option.map_some] at hfetch ⊢
      rw [hfetch, hptr]
      by_cases hfull : p.value.length = tdbMaxRecordLen
      · rw [fetchData_full hat hfull, if_pos hfull]
        rfl
      · obtain ⟨_, hval, _⟩ := fetchData_spec hat (Nat.lt_of_le_of_ne hlen hfull)
        rw [hval, if_neg hfull]
        rfl
  · rw [if_neg hk, dbFetch_refused db hk]
    rfl

/-- Closing and opening again for writing. -/
theorem Keeps.reopen (h : Keeps db l n) :
    ∃ db', dbOpen (dbFree db) .write = some db' ∧ Keeps db' l n := by
  obtain ⟨⟨ps, hps, hl⟩, _, hidx, hdat⟩ := h
  exact ⟨_, rfl, ⟨ps, hps.congr rfl rfl, hl⟩, ⟨rfl, rfl⟩, hidx, hdat⟩

/-- One call on the files answers as on the ledger. -/
theorem Keeps.call (h : Keeps db l n) (c : HandleCall) (hroom : n + c.growth < 2 ^ 63) :
    (c.onHandle db).1 = (c.onLedger l).1 ∧
      Keeps (c.onHandle db).2 (c.onLedger l).2 (n + c.growth) := by
  cases c with
  | insert key value pad =>
    by_cases ha : Accepted key value
    · obtain ⟨db', hst, hkeeps⟩ := h.insert ha hroom pad
      simp only [HandleCall.onHandle, HandleCall.onLedger, hst, if_pos ha]
      exact ⟨rfl, hkeeps⟩
    · simp only [HandleCall.onHandle, HandleCall.onLedger, if_neg ha,
        dbStore_refused allAccepted db ha .insert pad]
      exact ⟨rfl, h.mono _⟩
  | fetch key =>
    obtain ⟨hreply, hkeeps⟩ := h.fetch key
    refine ⟨hreply, ?_⟩
    rw [HandleCall.onLedger_fetch]
    exact hkeeps
  | reopen =>
    obtain ⟨db', hopen, hkeeps⟩ := h.reopen
    simp only [HandleCall.onHandle, hopen]
    exact ⟨rfl, hkeeps⟩

end Keeps

/-! ## Programs -/

namespace HandleCall

/-- The call of a program. -/
def inProcess (p : Process) : HandleCall → Except Halt Reply × Process
  | .insert key value pad =>
    let (r, p) := p.store key value pad
    (r.map .status, p)
  | .fetch key =>
    let (r, p) := p.fetch key
    (r.map .value, p)
  | .reopen =>
    match p.reopen .write with
    | none => (.error (.fault .exit), p)
    | some p => (.ok .opened, p)

/-- The call on the ledger, as a program sees it. -/
def expected (l : Ledger) (c : HandleCall) : Except Halt Reply × Ledger :=
  ((c.onLedger l).1.mapError .fault, (c.onLedger l).2)

end HandleCall

/-- The ledger after some calls, and what they have done to the lock of the data file. -/
structure Seen where
  ledger : Ledger
  marks : Marks

/-- The reply is a value. -/
def Reply.isValue : Except Fault Reply → Bool
  | .ok (.value (some _)) => true
  | _ => false

theorem isValue_map (r : Except Fault (Option CString)) :
    Reply.isValue (r.map .value) = returnsValue r := by
  cases r with
  | error fault => rfl
  | ok value => cases value <;> rfl

/-- What one call adds. A fetch that returns no value keeps its lock, and a store or a fetch of a
value gives it back; calls whose arguments are turned away do neither. -/
def Seen.next (s : Seen) (c : HandleCall) : Seen where
  ledger := (c.onLedger s.ledger).2
  marks := match c with
    | .insert key value _ => if Accepted key value then s.marks.stored else s.marks
    | .fetch key => if KeyLength key then
        s.marks.fetched (Reply.isValue (c.onLedger s.ledger).1) else s.marks
    | .reopen => s.marks.reopened

/-- What some calls add up to. -/
def seen (cs : List HandleCall) : Seen := cs.foldl Seen.next ⟨[], .none⟩

/-- The condition on a call: no closed handle has left its lock where the call inserts. -/
def NoLockLeft (done : List HandleCall) : HandleCall → Prop
  | .insert key value _ => Accepted key value → (seen done).marks.left = false
  | .fetch _ | .reopen => True

theorem seen_snoc (cs : List HandleCall) (c : HandleCall) :
    seen (cs ++ [c]) = (seen cs).next c := by
  rw [seen, List.foldl_append]
  rfl

/-- The files of a program hold the ledger, in so many bytes, and its locks are those the calls
have left. -/
structure Follows (done : List HandleCall) (p : Process) (l : Ledger) (n : Nat) : Prop where
  ledger : (seen done).ledger = l
  keeps : Keeps p.db l n
  marked : p.Marked (seen done).marks

section Follows

variable {done : List HandleCall} {p : Process} {l : Ledger} {n : Nat}

/-- An insert that gets its lock, or asks for none, answers as on the ledger. -/
theorem Follows.insert (h : Follows done p l n) {key value : CString} {pad : UInt32}
    (hroom : n + (value.length + keyRecordSize) < 2 ^ 63)
    (hfree : NoLockLeft done (.insert key value pad)) :
    ((HandleCall.insert key value pad).inProcess p).1 =
        ((HandleCall.insert key value pad).expected l).1 ∧
      Follows (done ++ [.insert key value pad]) ((HandleCall.insert key value pad).inProcess p).2
        ((HandleCall.insert key value pad).expected l).2 (n + (value.length + keyRecordSize)) := by
  have hledger : (seen (done ++ [.insert key value pad])).ledger =
      ((HandleCall.insert key value pad).onLedger l).2 := by
    rw [seen_snoc, ← h.ledger]
    rfl
  by_cases ha : Accepted key value
  · obtain ⟨db, hst, hdb⟩ := h.keeps.insert ha hroom pad
    have hstore := h.marked.store_eq (hfree ha) hst
    simp only [HandleCall.inProcess, hstore, HandleCall.expected, HandleCall.onLedger, if_pos ha]
      at hledger ⊢
    refine ⟨rfl, hledger, hdb, ?_⟩
    rw [seen_snoc, Seen.next, if_pos ha]
    exact h.marked.stored (dbStore_datLock hst (by split_ifs <;> decide))
  · have hstore := p.store_refused ha pad
    simp only [HandleCall.inProcess, hstore, HandleCall.expected, HandleCall.onLedger, if_neg ha]
      at hledger ⊢
    refine ⟨rfl, hledger, h.keeps.mono _, ?_⟩
    rw [seen_snoc, Seen.next, if_neg ha]
    exact h.marked

/-- An insert that does not get its lock does not answer. -/
theorem Follows.insert_waits (h : Follows done p l n) {key value : CString} {pad : UInt32}
    (hleft : ¬NoLockLeft done (.insert key value pad)) :
    ((HandleCall.insert key value pad).inProcess p).1 = .error .waits := by
  rw [NoLockLeft, Classical.not_imp, Bool.not_eq_false] at hleft
  rw [HandleCall.inProcess, h.marked.store_waits hleft.2 hleft.1]
  rfl

/-- A fetch answers as on the ledger. -/
theorem Follows.fetch (h : Follows done p l n) (key : CString) :
    ((HandleCall.fetch key).inProcess p).1 = ((HandleCall.fetch key).expected l).1 ∧
      Follows (done ++ [.fetch key]) ((HandleCall.fetch key).inProcess p).2
        ((HandleCall.fetch key).expected l).2 n := by
  obtain ⟨hreply, hkeeps⟩ := h.keeps.fetch key
  have hl : ((HandleCall.fetch key).onLedger l).2 = l := HandleCall.onLedger_fetch key l
  have hvalue := isValue_map (dbFetch p.db key).1
  simp only [HandleCall.onHandle] at hreply hkeeps
  rw [HandleCall.inProcess, h.marked.fetch_eq key, HandleCall.expected, hl]
  refine ⟨?_, ?_, hkeeps, ?_⟩
  · rw [← hreply]
    cases (dbFetch p.db key).1 <;> rfl
  · rw [seen_snoc, ← h.ledger]
    exact HandleCall.onLedger_fetch key _
  · rw [seen_snoc, Seen.next]
    dsimp only
    split_ifs with hk
    · rw [h.ledger, ← hreply, hvalue]
      exact h.marked.fetched (dbFetch_datLock p.db hk)
    · rw [dbFetch_refused p.db hk]
      exact h.marked

/-- Closing and opening again. -/
theorem Follows.reopen (h : Follows done p l n) :
    (HandleCall.reopen.inProcess p).1 = (HandleCall.reopen.expected l).1 ∧
      Follows (done ++ [.reopen]) (HandleCall.reopen.inProcess p).2
        (HandleCall.reopen.expected l).2 n := by
  obtain ⟨db, hopen, hdb⟩ := h.keeps.reopen
  have hlock : db.datLock = .unlocked := by
    cases hopen
    rfl
  simp only [HandleCall.inProcess, Process.reopen, hopen, Option.map_some]
  refine ⟨rfl, ?_, hdb, ?_⟩
  · rw [seen_snoc, ← h.ledger]
    rfl
  · rw [seen_snoc]
    exact h.marked.reopened hlock

/-- A call that meets no lock answers as on the ledger. -/
theorem Follows.call (h : Follows done p l n) {c : HandleCall} (hroom : n + c.growth < 2 ^ 63)
    (hfree : NoLockLeft done c) :
    (c.inProcess p).1 = (c.expected l).1 ∧
      Follows (done ++ [c]) (c.inProcess p).2 (c.expected l).2 (n + c.growth) := by
  cases c with
  | insert key value pad => exact h.insert hroom hfree
  | fetch key => exact h.fetch key
  | reopen => exact h.reopen

end Follows

/-- What a sequence of calls adds to a file at most. -/
def growth (cs : List HandleCall) : Nat := (cs.map HandleCall.growth).sum

end CachelibArchive.Tmdb
