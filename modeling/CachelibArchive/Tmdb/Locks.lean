import CachelibArchive.Core.Run
import CachelibArchive.Tmdb.Streams

/-!
# Who holds the file locks

Any number of handles share the two files, each through streams of its own.
`_db_find_and_lock` takes both locks before it reads anything, and leaves it to
its callers to give them back. What a caller does depends on how the search
ended, so whether a call returns with the locks free is decided by what its
handle reads for the bucket of its key, and that need not be what the file
holds.
-/

namespace CachelibArchive.Tmdb.Streams

variable {σ : Type}

/-! ## Calls on one handle -/

/-- The three operations with the arguments of the source; a null pointer is `none`. -/
inductive Call
  | store (accepts : WriteSite → Bool) (key value : Option CString) (mode : StoreMode)
      (pad : UInt32)
  | delete (key : Option CString)
  | fetch (key : Option CString)

/-- The handle a call leaves, if it returns. -/
def returned {α : Type} : Except Fault α × Handle σ → Option (Handle σ)
  | (.ok _, h) => some h
  | (.error _, _) => none

/-- A call with its null checks; its search makes at most so many passes. -/
def Call.run (io : Stdio σ) (passes : Nat) (h : Handle σ) : Call → Option (Handle σ)
  | .store accepts (some key) (some value) mode pad =>
    returned (dbStore io passes accepts h key value mode pad)
  | .delete (some key) => returned (dbDelete io passes h key)
  | .fetch (some key) => returned (dbFetch io passes h key)
  | _ => some h

/-- The length check all three operations make on a key. -/
def KeyOk (key : CString) : Prop := ¬(key.length ≤ 0 ∨ tdbMaxKeyLen < key.length)

instance (key : CString) : Decidable (KeyOk key) := inferInstanceAs (Decidable (¬_))

/-- The key a call searches for and whether it writes, if its arguments pass the checks. -/
def Call.search : Call → Option (CString × Bool)
  | .store _ (some key) (some value) mode _ =>
    if mode ≠ .other ∧ KeyOk key ∧ value.length ≤ tdbMaxRecordLen then some (key, true) else none
  | .delete (some key) => if KeyOk key then some (key, true) else none
  | .fetch (some key) => if KeyOk key then some (key, false) else none
  | _ => none

/-- Both locks are free for this handle. -/
structure Handle.Unlocked (h : Handle σ) : Prop where
  idx : h.idxLock = .unlocked
  dat : h.datLock = .unlocked

instance (h : Handle σ) : Decidable h.Unlocked :=
  decidable_of_iff (h.idxLock = .unlocked ∧ h.datLock = .unlocked)
    ⟨fun h => ⟨h.1, h.2⟩, fun h => ⟨h.idx, h.dat⟩⟩

/-! ## What the bucket of a key says -/

/-- The stream delivers the eight bytes of the bucket pointer of the key. -/
def BucketRead (io : Stdio σ) (h : Handle σ) (key : CString) : Prop :=
  (readBucket io h.idx key).1.length = tdbOffSize

/-- Following next pointers from `p` through whole records meets one that compares as the key, in
the bytes the stream delivers. -/
inductive Meets (io : Stdio σ) (key : CString) : σ → Int → Prop
  | here {idx : σ} {p : Int} (whole : (readRecord io idx p).1.length = keyRecordSize)
      (hit : recordKey (readRecord io idx p).1 = some key.bytes) : Meets io key idx p
  | next {idx : σ} {p : Int} (whole : (readRecord io idx p).1.length = keyRecordSize)
      (miss : recordKey (readRecord io idx p).1 ≠ some key.bytes)
      (more : recordNextPtr (readRecord io idx p).1 ≠ 0)
      (rest : Meets io key (readRecord io idx p).2 (recordNextPtr (readRecord io idx p).1)) :
      Meets io key idx p

/-- The key is on the chain of its bucket. -/
def OnChain (io : Stdio σ) (h : Handle σ) (key : CString) : Prop :=
  LittleEndian.toInt (readBucket io h.idx key).1 ≠ 0 ∧
    Meets io key (readBucket io h.idx key).2 (LittleEndian.toInt (readBucket io h.idx key).1)

/-- A store needs its bucket pointer read; a deletion or a fetch needs its key found too. -/
def Call.GivesBack (io : Stdio σ) (h : Handle σ) (c : Call) : Prop :=
  match c.search, c with
  | none, _ => True
  | some (key, _), .store .. => BucketRead io h key
  | some (key, _), _ => BucketRead io h key ∧ OnChain io h key

/-! ## How the search ends -/

section search

variable {io : Stdio σ} {passes : Nat}

/-- A loop that returns has found the key exactly if the pointers lead to it. -/
theorem findLoop_find_iff {key : CString} {idx : σ} {p : Int} {found : Found σ}
    (h : findLoop io key passes idx p = .ok found) :
    found.find = true ↔ Meets io key idx p := by
  induction passes generalizing idx p with
  | zero => cases h
  | succ passes ih =>
    rw [findLoop] at h
    dsimp only at h
    by_cases hw : (readRecord io idx p).1.length = keyRecordSize
    · rw [if_neg (not_not.mpr hw)] at h
      cases hk : recordKey (readRecord io idx p).1 with
      | none =>
        rw [hk] at h
        cases h
      | some k =>
        rw [hk] at h
        dsimp only at h
        by_cases he : k = key.bytes
        · rw [if_pos he] at h
          cases h
          exact iff_of_true rfl (.here hw (by rw [hk, he]))
        · have hmiss : recordKey (readRecord io idx p).1 ≠ some key.bytes := by
            rw [hk]
            exact fun hs => he (Option.some.inj hs)
          rw [if_neg he] at h
          by_cases hz : recordNextPtr (readRecord io idx p).1 = 0
          · rw [if_pos hz] at h
            cases h
            apply iff_of_false Bool.false_ne_true
            intro hm
            cases hm with
            | here _ hit => exact hmiss hit
            | next _ _ more _ => exact more hz
          · rw [if_neg hz] at h
            rw [ih h]
            constructor
            · exact .next hw hmiss hz
            · intro hm
              cases hm with
              | here _ hit => exact absurd hit hmiss
              | next _ _ _ rest => exact rest
    · rw [if_pos hw] at h
      cases h

/-- A search that returns holds both locks, and its answer is what the bucket says. -/
theorem dbFindAndLock_ok {h h' : Handle σ} {key : CString} {isWrite : Bool} {ret : KeyStatus}
    (hret : dbFindAndLock io passes h key isWrite = (.ok ret, h')) :
    ¬h'.Unlocked ∧ (ret = .error ↔ ¬BucketRead io h key) ∧
      (ret = .exist ↔ BucketRead io h key ∧ OnChain io h key) := by
  have hheld : ∀ x : Handle σ, x.idxLock = (if isWrite then .exclusive else .shared) →
      ¬x.Unlocked := by
    intro x hx hu
    rw [hu.idx] at hx
    cases isWrite <;> cases hx
  rw [dbFindAndLock] at hret
  dsimp only [Handle.lock] at hret
  by_cases hb : BucketRead io h key
  · have hlen : ¬(readBucket io h.idx key).1.length ≠ tdbOffSize := not_not.mpr hb
    rw [if_neg hlen] at hret
    by_cases hz : LittleEndian.toInt (readBucket io h.idx key).1 = 0
    · rw [if_pos hz] at hret
      cases hret
      exact ⟨hheld _ rfl, by simp [hb], by simp [OnChain, hz]⟩
    · rw [if_neg hz] at hret
      cases hf : findLoop io key passes (readBucket io h.idx key).2
          (LittleEndian.toInt (readBucket io h.idx key).1) with
      | error fault =>
        rw [hf] at hret
        cases hret
      | ok found =>
        have hfind := findLoop_find_iff hf
        have hmeets : OnChain io h key ↔ found.find = true :=
          ⟨fun hm => hfind.mpr hm.2, fun hm => ⟨hz, hfind.mp hm⟩⟩
        rw [hf] at hret
        dsimp only at hret
        by_cases hx : found.find = true
        · rw [if_pos hx] at hret
          cases hret
          exact ⟨hheld _ rfl, by simp [hb], by simp [hb, hmeets, hx]⟩
        · rw [if_neg hx] at hret
          cases hret
          exact ⟨hheld _ rfl, by simp [hb], by simp [hmeets, hx]⟩
  · have hlen : (readBucket io h.idx key).1.length ≠ tdbOffSize := hb
    rw [if_pos hlen] at hret
    cases hret
    exact ⟨hheld _ rfl, by simp [hb], by simp [hb]⟩

/-- A search that does not find its key leaves the locks to a caller who may return. -/
theorem unlocked_iff_onChain {h h' : Handle σ} {key : CString} {isWrite : Bool} {ret : KeyStatus}
    (hret : dbFindAndLock io passes h key isWrite = (.ok ret, h')) (hne : ret ≠ .exist) :
    h'.Unlocked ↔ BucketRead io h key ∧ OnChain io h key := by
  obtain ⟨hheld, _, hexist⟩ := dbFindAndLock_ok hret
  exact iff_of_false hheld fun hs => hne (hexist.mpr hs)

/-! ## What a call gives back -/

theorem lock_unlocked (h : Handle σ) : (h.lock .unlocked).Unlocked := ⟨rfl, rfl⟩

/-- A call that returned. -/
theorem returned_eq_some {α : Type} {r : Except Fault α × Handle σ} {h : Handle σ}
    (hr : returned r = some h) : ∃ a, r = (.ok a, h) := by
  obtain ⟨x, h'⟩ := r
  cases x with
  | error fault => cases hr
  | ok a =>
    cases hr
    exact ⟨a, rfl⟩

/-- A store that takes locks gives them back exactly if it reads its bucket pointer. -/
theorem dbStore_unlocked {accepts : WriteSite → Bool} {h h' : Handle σ} {key value : CString}
    {mode : StoreMode} {pad : UInt32} {r : Status} (hu : h.Unlocked)
    (hr : dbStore io passes accepts h key value mode pad = (.ok r, h')) :
    h'.Unlocked ↔
      (mode ≠ .other ∧ KeyOk key ∧ value.length ≤ tdbMaxRecordLen → BucketRead io h key) := by
  unfold dbStore at hr
  by_cases hm : mode = .other
  · rw [if_pos hm] at hr
    cases hr
    exact iff_of_true hu fun hs => absurd hm hs.1
  rw [if_neg hm] at hr
  by_cases hk : KeyOk key
  swap
  · rw [if_pos (not_not.mp hk)] at hr
    cases hr
    exact iff_of_true hu fun hs => absurd hs.2.1 hk
  rw [if_neg hk] at hr
  by_cases hv : tdbMaxRecordLen < value.length
  · rw [if_pos hv] at hr
    cases hr
    exact iff_of_true hu fun hs => absurd hv (Nat.not_lt.mpr hs.2.2)
  rw [if_neg hv] at hr
  rw [imp_iff_right ⟨hm, hk, Nat.not_lt.mp hv⟩]
  split at hr
  · cases hr
  · next hf =>
    cases hr
    obtain ⟨hheld, herr, _⟩ := dbFindAndLock_ok hf
    exact iff_of_false hheld (herr.mp rfl)
  · next hne hf =>
    have hb : BucketRead io h key :=
      not_not.mp fun hn => hne ((dbFindAndLock_ok hf).2.1.mpr hn)
    refine iff_of_true ?_ hb
    split at hr
    · cases hr
      exact lock_unlocked _
    · split at hr
      · cases hr
        exact lock_unlocked _
      · dsimp only at hr
        split at hr <;>
          · cases hr
            exact lock_unlocked _

/-- A deletion has to find a record, too, -/
theorem dbDelete_unlocked {h h' : Handle σ} {key : CString} {r : Status} (hu : h.Unlocked)
    (hr : dbDelete io passes h key = (.ok r, h')) :
    h'.Unlocked ↔ (KeyOk key → BucketRead io h key ∧ OnChain io h key) := by
  unfold dbDelete at hr
  by_cases hk : KeyOk key
  swap
  · rw [if_pos (not_not.mp hk)] at hr
    cases hr
    exact iff_of_true hu fun hs => absurd hs hk
  rw [if_neg hk] at hr
  rw [imp_iff_right hk]
  split at hr
  · cases hr
  · next hf =>
    cases hr
    exact unlocked_iff_onChain hf (by decide)
  · next hf =>
    cases hr
    exact unlocked_iff_onChain hf (by decide)
  · next hf =>
    cases hr
    exact unlocked_iff_onChain hf (by decide)
  · next hf =>
    refine iff_of_true ?_ ((dbFindAndLock_ok hf).2.2.mp rfl)
    dsimp only at hr
    split at hr <;> cases hr
    exact lock_unlocked _

/-- and so has a fetch. -/
theorem dbFetch_unlocked {h h' : Handle σ} {key : CString} {r : Option CString} (hu : h.Unlocked)
    (hr : dbFetch io passes h key = (.ok r, h')) :
    h'.Unlocked ↔ (KeyOk key → BucketRead io h key ∧ OnChain io h key) := by
  unfold dbFetch at hr
  by_cases hk : KeyOk key
  swap
  · rw [if_pos (not_not.mp hk)] at hr
    cases hr
    exact iff_of_true hu fun hs => absurd hs hk
  rw [if_neg hk] at hr
  rw [imp_iff_right hk]
  split at hr
  · cases hr
  · next hf =>
    refine iff_of_true ?_ ((dbFindAndLock_ok hf).2.2.mp rfl)
    split at hr <;> cases hr
    exact lock_unlocked _
  · next hne hf =>
    cases hr
    exact unlocked_iff_onChain hf hne

/-- A call that returns leaves the handle unlocked exactly under its condition. -/
theorem Handle.Unlocked.run_unlocked {h h' : Handle σ} {c : Call} (hu : h.Unlocked)
    (hr : c.run io passes h = some h') : h'.Unlocked ↔ c.GivesBack io h := by
  cases c with
  | store accepts key value mode pad =>
    cases key with
    | none =>
      cases hr
      exact iff_of_true hu trivial
    | some key =>
      cases value with
      | none =>
        cases hr
        exact iff_of_true hu trivial
      | some value =>
        obtain ⟨r, hr⟩ := returned_eq_some hr
        rw [dbStore_unlocked hu hr]
        simp only [Call.GivesBack, Call.search]
        split_ifs with hargs
        · exact imp_iff_right hargs
        · exact iff_of_true (fun hs => absurd hs hargs) trivial
  | delete key =>
    cases key with
    | none =>
      cases hr
      exact iff_of_true hu trivial
    | some key =>
      obtain ⟨r, hr⟩ := returned_eq_some hr
      rw [dbDelete_unlocked hu hr]
      simp only [Call.GivesBack, Call.search]
      split_ifs with hargs
      · exact imp_iff_right hargs
      · exact iff_of_true (fun hs => absurd hs hargs) trivial
  | fetch key =>
    cases key with
    | none =>
      cases hr
      exact iff_of_true hu trivial
    | some key =>
      obtain ⟨r, hr⟩ := returned_eq_some hr
      rw [dbFetch_unlocked hu hr]
      simp only [Call.GivesBack, Call.search]
      split_ifs with hargs
      · exact imp_iff_right hargs
      · exact iff_of_true (fun hs => absurd hs hargs) trivial

end search

/-! ## Several handles on one pair of files -/

/-- The two files, the handles opened on them, and the locks of the data streams that closed
handles have left open. -/
structure Shared (σ : Type) where
  idx : ByteFile
  dat : ByteFile
  handles : List (Handle σ)
  left : List FileLock

/-- A handle with its streams on the files as they are now. -/
def Shared.view (io : Stdio σ) (s : Shared σ) (h : Handle σ) : Handle σ :=
  { h with idx := io.onFile h.idx s.idx, dat := io.onFile h.dat s.dat }

/-- A request of handle `i` for this lock on both files waits. -/
def Shared.Blocked (s : Shared σ) (i : Nat) (l : FileLock) : Prop :=
  (∃ h ∈ s.handles.eraseIdx i, ¬(h.idxLock.admits l ∧ h.datLock.admits l)) ∨
    ∃ x ∈ s.left, ¬x.admits l

instance (s : Shared σ) (i : Nat) (l : FileLock) : Decidable (s.Blocked i l) :=
  inferInstanceAs (Decidable (_ ∨ _))

/-- Another handle is opened, a handle makes a call, or a handle is closed. -/
inductive Act
  | attach (mode : OpenMode)
  | call (i : Nat) (c : Call) (passes : Nat)
  | free (i : Nat)

/-- One opening, one call that gets its locks and returns, or one closing: `_db_free` closes the
stream of the index file, and the stream of the data file stays open with its lock. -/
def Shared.step (io : Stdio σ) (s : Shared σ) : Act → Option (Shared σ)
  | .attach mode =>
    (dbOpen io ⟨some s.idx, some s.dat⟩ mode).map fun h =>
      { s with idx := io.file h.idx, dat := io.file h.dat, handles := s.handles ++ [h] }
  | .call i c passes =>
    s.handles[i]?.bind fun h =>
      if ∃ l ∈ c.search, s.Blocked i (if l.2 then .exclusive else .shared) then none
      else (c.run io passes (s.view io h)).map fun h =>
        { s with idx := io.file h.idx, dat := io.file h.dat, handles := s.handles.set i h }
  | .free i =>
    s.handles[i]?.map fun h =>
      { s with
        idx := io.fclose (io.onFile h.idx s.idx), handles := s.handles.eraseIdx i
        left := s.left ++ [h.datLock] }

/-- No handle holds a lock, and none has left one. -/
structure Shared.Free (s : Shared σ) : Prop where
  handles : ∀ h ∈ s.handles, h.Unlocked
  left : ∀ x ∈ s.left, x = .unlocked

/-- No lock is held, and no handle would wait for LOCK_EX. -/
def Shared.Released (s : Shared σ) : Prop := s.Free ∧ ∀ i, ¬s.Blocked i .exclusive

/-- The condition on a step: its call gives its locks back. -/
def Shared.GivesBack (io : Stdio σ) (s : Shared σ) : Act → Prop
  | .attach _ | .free _ => True
  | .call i c _ => ∀ h ∈ s.handles[i]?, c.GivesBack io (s.view io h)

/-- A database just created, before any handle is opened on it. -/
def Shared.created : Shared σ := ⟨createdDb.idx.file, createdDb.dat.file, [], []⟩

namespace Shared

variable {io : Stdio σ}

/-- Locks that are not held are released. -/
theorem Free.released {s : Shared σ} (hs : s.Free) : s.Released := by
  refine ⟨hs, fun i hb => ?_⟩
  rcases hb with ⟨h, hmem, hconf⟩ | ⟨x, hmem, hconf⟩
  · obtain ⟨hidx, hdat⟩ := hs.handles h (List.mem_of_mem_eraseIdx hmem)
    rw [hidx, hdat] at hconf
    exact hconf ⟨rfl, rfl⟩
  · rw [hs.left x hmem] at hconf
    exact hconf rfl

instance (s : Shared σ) : Decidable s.Released :=
  decidable_of_iff ((∀ h ∈ s.handles, h.Unlocked) ∧ ∀ x ∈ s.left, x = .unlocked)
    ⟨fun h => Free.released ⟨h.1, h.2⟩, fun h => ⟨h.1.handles, h.1.left⟩⟩

/-- A handle just opened holds no lock. -/
theorem dbOpen_unlocked {disk : Disk} {mode : OpenMode} {h : Handle σ}
    (ho : dbOpen io disk mode = some h) : h.Unlocked := by
  unfold dbOpen at ho
  split at ho <;> cases ho <;> exact ⟨rfl, rfl⟩

/-- What an opening does to the handles. -/
theorem step_attach {s t : Shared σ} {mode : OpenMode} (h : s.step io (.attach mode) = some t) :
    ∃ x : Handle σ, x.Unlocked ∧ t.handles = s.handles ++ [x] ∧ t.left = s.left := by
  obtain ⟨x, hopen, rfl⟩ := Option.map_eq_some_iff.mp h
  exact ⟨x, dbOpen_unlocked hopen, rfl, rfl⟩

/-- A call changes one handle. -/
theorem step_call {s t : Shared σ} {i : Nat} {c : Call} {passes : Nat}
    (h : s.step io (.call i c passes) = some t) :
    ∃ x y : Handle σ, s.handles[i]? = some x ∧ c.run io passes (s.view io x) = some y ∧
      t.handles = s.handles.set i y ∧ t.left = s.left := by
  obtain ⟨x, hx, h⟩ := Option.bind_eq_some_iff.mp h
  split at h
  · cases h
  · obtain ⟨y, hrun, rfl⟩ := Option.map_eq_some_iff.mp h
    exact ⟨x, y, hx, hrun, rfl, rfl⟩

/-- A handle freed leaves its lock behind. -/
theorem step_free {s t : Shared σ} {i : Nat} (h : s.step io (.free i) = some t) :
    ∃ x ∈ s.handles, t.handles = s.handles.eraseIdx i ∧ t.left = s.left ++ [x.datLock] := by
  obtain ⟨x, hx, rfl⟩ := Option.map_eq_some_iff.mp h
  exact ⟨x, List.mem_of_getElem? hx, rfl, rfl⟩

/-- The handle that made the call decides whether the locks are free again. -/
theorem Free.call {s t : Shared σ} {i : Nat} {c : Call} {passes : Nat} (hs : s.Free)
    (h : s.step io (.call i c passes) = some t) : t.Free ↔ s.GivesBack io (.call i c passes) := by
  obtain ⟨x, y, hx, hrun, ht, hleft⟩ := step_call h
  obtain ⟨hidx, hdat⟩ := hs.handles x (List.mem_of_getElem? hx)
  have hview : (s.view io x).Unlocked := ⟨hidx, hdat⟩
  have hiff := hview.run_unlocked hrun
  have hcond : s.GivesBack io (.call i c passes) ↔ c.GivesBack io (s.view io x) := by
    simp [Shared.GivesBack, hx]
  rw [hcond, ← hiff]
  constructor
  · intro hfree
    apply hfree.handles
    rw [ht]
    exact List.mem_set (List.getElem?_eq_some_iff.mp hx).1 y
  · intro hu
    refine ⟨fun z hz => ?_, fun l hl => hs.left l (hleft ▸ hl)⟩
    rw [ht] at hz
    rcases List.mem_or_eq_of_mem_set hz with hold | rfl
    · exact hs.handles z hold
    · exact hu

/-- A step that gives its lock back keeps the file free. -/
theorem Free.step {s t : Shared σ} {a : Act} (hs : s.Free) (ha : s.GivesBack io a)
    (h : s.step io a = some t) : t.Free := by
  cases a with
  | attach mode =>
    obtain ⟨x, hu, ht, hleft⟩ := step_attach h
    refine ⟨fun z hz => ?_, fun l hl => hs.left l (hleft ▸ hl)⟩
    rw [ht, List.mem_append, List.mem_singleton] at hz
    rcases hz with hold | rfl
    · exact hs.handles z hold
    · exact hu
  | call i c passes => exact (hs.call h).mpr ha
  | free i =>
    obtain ⟨x, hx, ht, hleft⟩ := step_free h
    refine ⟨fun z hz => hs.handles z (List.mem_of_mem_eraseIdx (ht ▸ hz)), fun l hl => ?_⟩
    rw [hleft, List.mem_append, List.mem_singleton] at hl
    rcases hl with hold | rfl
    · exact hs.left l hold
    · exact (hs.handles x hx).dat

/-- From any files and any handles without locks, through whatever streams: every state of a run
is free of locks and of waiting, if and only if every call of the run meets the condition. -/
theorem released_iff_givesBack (io : Stdio σ) {s : Shared σ} (hs : s.Free) (acts : List Act) :
    Run.Always (Shared.step io) Released s acts ↔
      Run.EachStep (Shared.step io) (GivesBack io) s acts := by
  apply Run.always_iff_eachStep (fun _ => Free.released) (fun _ _ _ => Free.step) ?_ hs
  intro s a t hs h ht
  cases a with
  | attach mode => trivial
  | free i => trivial
  | call i c passes => exact (hs.call h).mp ht.1

theorem free_created : (created : Shared σ).Free := ⟨by simp [created], by simp [created]⟩

/-- Two handles that read blocks: an insert through the first, a fetch and a deletion through the
second, which is closed then. -/
def twoHandles : List Act :=
  [.attach .write, .attach .write,
    .call 0 (.store allAccepted (some keyOne.str) (some valueX.str) .insert 0) 10,
    .call 1 (.fetch (some keyOne.str)) 10, .call 1 (.delete (some keyOne.str)) 10, .free 1]

theorem givesBack_twoHandles :
    (Run.exec (Shared.step (Stdio.blocked 4096)) created twoHandles).isSome ∧
      Run.EachStep (Shared.step (Stdio.blocked 4096)) (GivesBack (Stdio.blocked 4096)) created
        twoHandles :=
  ⟨by decide +kernel,
    (released_iff_givesBack _ free_created twoHandles).mp (by decide +kernel)⟩

/-- A fetch of an absent key through one handle keeps LOCK_SH on both files. -/
theorem not_released_fetch : ¬Run.Always (Shared.step Stdio.plain) Released created
    [.attach .write, .call 0 (.fetch (some keyOne.str)) 10] := by
  decide +kernel

/-- The second handle replaces, the first inserts, and the second reads its old block: the key is
in the file, but the fetch keeps its lock. -/
example : ¬Run.Always (Shared.step (Stdio.blocked 4096)) Released created
    [.attach .write, .attach .write,
      .call 1 (.store allAccepted (some keyOne.str) (some valueX.str) .replace 0) 10,
      .call 0 (.store allAccepted (some keyOne.str) (some valueX.str) .insert 0) 10,
      .call 1 (.fetch (some keyOne.str)) 10] := by
  decide +kernel

end Shared

end CachelibArchive.Tmdb.Streams
