import CachelibArchive.Core.Run
import Mathlib.Algebra.Group.Nat.Defs
import Mathlib.Data.List.Nodup
import Mathlib.Logic.Function.Basic

/-!
# The workload

Threads share the counter that hands out keys to inserts, but each counts for
itself how many records there are. An insert takes its key, reaches the backend,
and is counted, and other threads may come in between. So the records a thread
counts are not the first ones: the insert of an earlier key may still be under way.
-/

namespace CachelibArchive.Backend

/-- Where a thread is in `YCSBBenchmark::step`. -/
inductive Stage
  | idle
  | inserting (key : UInt32)
  | inserted
  deriving DecidableEq

/-- What a `YCSBBenchmark` keeps between steps. The sequence is that of the warm-up or of
`DISTRIBUTION_SEQUENTIAL`. -/
structure YCSBBenchmark where
  maxRecords : UInt32
  sequentialCounter : UInt32
  stage : Stage
  deriving DecidableEq

/-- The threads and what they share. A key is an `int`, taken with its bits as the counters
have them. -/
structure Workload (T : Nat) where
  nextInsertKey : UInt32
  stored : UInt32 → Bool
  thread : Fin T → YCSBBenchmark
  /-- An exception has left a thread, which ends the program. -/
  thrown : Bool
  /-- The keys that inserts have taken, latest first. -/
  taken : List UInt32

/-- What the threads start from: the number of records loaded, and a place in the sequence
for each. -/
structure Launch (T : Nat) where
  records : UInt32
  startIdx : Fin T → UInt32
  below : ∀ i, startIdx i < records

/-- With a thread there are records loaded. -/
theorem Launch.records_pos {T : Nat} (l : Launch T) (i : Fin T) : 0 < l.records.toNat :=
  Nat.lt_of_le_of_lt (Nat.zero_le _) (UInt32.lt_iff_toNat_lt.mp (l.below i))

/-- The keys below the number of records are loaded. -/
def Launch.initial {T : Nat} (l : Launch T) : Workload T where
  nextInsertKey := l.records
  stored key := key < l.records
  thread i := ⟨l.records, l.startIdx i, .idle⟩
  thrown := false
  taken := []

/-- The parts of a step that other threads may come between. -/
inductive YcsbOp (T : Nat)
  | takeKey (i : Fin T)
  | insertRecord (i : Fin T)
  | countRecord (i : Fin T)
  | readRecord (i : Fin T)

namespace YCSBBenchmark

/-- The counter behind a read. -/
def nextCounter (b : YCSBBenchmark) : UInt32 :=
  if b.maxRecords ≤ b.sequentialCounter + 1 then 0 else b.sequentialCounter + 1

end YCSBBenchmark

namespace Workload

variable {T : Nat}

/-- A thread moves on. -/
def setThread (s : Workload T) (i : Fin T) (b : YCSBBenchmark) : Workload T :=
  { s with thread := Function.update s.thread i b }

/-- One part of a step of one thread. Inserts succeed; a read of a key that is not stored
fails, and `Benchmark::run` throws. -/
def step (s : Workload T) : YcsbOp T → Option (Workload T)
  | .takeKey i =>
    let b := s.thread i
    if s.thrown = false ∧ b.stage = .idle then
      some { s.setThread i { b with stage := .inserting s.nextInsertKey } with
        nextInsertKey := s.nextInsertKey + 1
        taken := s.nextInsertKey :: s.taken }
    else none
  | .insertRecord i =>
    let b := s.thread i
    match s.thrown, b.stage with
    | false, .inserting key => some { s.setThread i { b with stage := .inserted } with
        stored := Function.update s.stored key true }
    | _, _ => none
  | .countRecord i =>
    let b := s.thread i
    if s.thrown = false ∧ b.stage = .inserted then
      some (s.setThread i { b with maxRecords := b.maxRecords + 1, stage := .idle })
    else none
  | .readRecord i =>
    let b := s.thread i
    if s.thrown = false ∧ b.stage = .idle then
      if s.stored b.sequentialCounter then
        some (s.setThread i { b with sequentialCounter := b.nextCounter })
      else some { s with thrown := true }
    else none

/-- The thread is inserting the record of this key. -/
abbrev Flying (s : Workload T) (j : Fin T) (key : UInt32) : Prop :=
  (s.thread j).stage = .inserting key

/-- No read has failed, and no two inserts, those of the loaded records included, have used
the same key. -/
def Sound (l : Launch T) (s : Workload T) : Prop :=
  s.thrown = false ∧ s.taken.Nodup ∧ ∀ key ∈ s.taken, l.records ≤ key

/-- The condition on a read: no thread is inserting the record that is read. The condition on
an insert: there is a key left. -/
def Settled (l : Launch T) (s : Workload T) : YcsbOp T → Prop
  | .takeKey _ => l.records.toNat + s.taken.length < 2 ^ 32
  | .readRecord i => ∀ j, ¬s.Flying j (s.thread i).sequentialCounter
  | .insertRecord _ | .countRecord _ => True

/-! ## Steps -/

variable {l : Launch T} {s t : Workload T} {i : Fin T}

theorem setThread_thread (s : Workload T) (i j : Fin T) (b : YCSBBenchmark) :
    (s.setThread i b).thread j = if j = i then b else s.thread j := by
  by_cases h : j = i
  · subst h
    rw [if_pos rfl]
    exact Function.update_self ..
  · rw [if_neg h]
    exact Function.update_of_ne h ..

/-- What the other threads are inserting stays. -/
theorem flying_setThread {b : YCSBBenchmark} {j : Fin T} {key : UInt32} :
    (s.setThread i b).Flying j key ↔
      j = i ∧ b.stage = .inserting key ∨ j ≠ i ∧ s.Flying j key := by
  rw [Flying, setThread_thread]
  by_cases h : j = i <;> simp [h]

/-- What taking a key does, -/
theorem step_takeKey (h : step s (.takeKey i) = some t) :
    (s.thread i).stage = .idle ∧
      t = { s.setThread i { s.thread i with stage := .inserting s.nextInsertKey } with
        nextInsertKey := s.nextInsertKey + 1
        taken := s.nextInsertKey :: s.taken } := by
  rw [step] at h
  split_ifs at h with hidle
  exact ⟨hidle.2, (Option.some.inj h).symm⟩

/-- inserting the record, -/
theorem step_insertRecord (h : step s (.insertRecord i) = some t) :
    ∃ key, (s.thread i).stage = .inserting key ∧
      t = { s.setThread i { s.thread i with stage := .inserted } with
        stored := Function.update s.stored key true } := by
  rw [step] at h
  split at h
  · next key _ hstage => exact ⟨key, hstage, (Option.some.inj h).symm⟩
  · cases h

/-- counting it, -/
theorem step_countRecord (h : step s (.countRecord i) = some t) :
    (s.thread i).stage = .inserted ∧
      t = s.setThread i { s.thread i with
        maxRecords := (s.thread i).maxRecords + 1, stage := .idle } := by
  rw [step] at h
  split_ifs at h with hinserted
  exact ⟨hinserted.2, (Option.some.inj h).symm⟩

/-- and reading the next one. -/
theorem step_readRecord (h : step s (.readRecord i) = some t) :
    (s.thread i).stage = .idle ∧
      t = if s.stored (s.thread i).sequentialCounter then
          s.setThread i { s.thread i with sequentialCounter := (s.thread i).nextCounter }
        else { s with thrown := true } := by
  rw [step] at h
  split_ifs at h with hidle hstored
  · exact ⟨hidle.2, by rw [if_pos hstored, Option.some.inj h]⟩
  · exact ⟨hidle.2, by rw [if_neg hstored, Option.some.inj h]⟩

/-! ## The invariant -/

/-- How many keys there are, those of the loaded records included. -/
def keys (l : Launch T) (s : Workload T) : Nat := l.records.toNat + s.taken.length

/-- What a thread keeps to: it has not counted more records than there are keys, an insert
under way aside, and reads below that. -/
structure Bounded (n : Nat) (b : YCSBBenchmark) : Prop where
  records : b.maxRecords.toNat + (if b.stage = .idle then 0 else 1) ≤ n
  counter : b.sequentialCounter.toNat < n

/-- The keys taken are the next ones, and all but those of inserts under way are stored. -/
structure Ordered (l : Launch T) (s : Workload T) : Prop where
  running : s.thrown = false
  room : s.keys l ≤ 2 ^ 32
  next : s.nextInsertKey.toNat = s.keys l % 2 ^ 32
  nodup : s.taken.Nodup
  mem_taken : ∀ key, key ∈ s.taken ↔ l.records.toNat ≤ key.toNat ∧ key.toNat < s.keys l
  stored_iff : ∀ key, s.stored key = true ↔ key.toNat < s.keys l ∧ ∀ j, ¬s.Flying j key
  flying : ∀ j key, s.Flying j key → key ∈ s.taken
  single : ∀ j j' key, s.Flying j key → s.Flying j' key → j = j'
  bounded : ∀ j, Bounded (s.keys l) (s.thread j)

/-- The workload starts in order. -/
theorem ordered_initial (l : Launch T) : Ordered l l.initial where
  running := rfl
  room := Nat.le_of_lt l.records.toNat_lt
  next := (Nat.mod_eq_of_lt l.records.toNat_lt).symm
  nodup := List.nodup_nil
  mem_taken key := by
    simp only [Launch.initial, keys, List.not_mem_nil, List.length_nil, false_iff]
    omega
  stored_iff key := by
    simp [Launch.initial, keys, UInt32.lt_iff_toNat_lt]
  flying j key h := by cases h
  single j j' key h := by cases h
  bounded j := ⟨Nat.le_refl _, UInt32.lt_iff_toNat_lt.mp (l.below j)⟩

/-- In order, no read has failed and no key was taken twice. -/
theorem Ordered.sound (h : Ordered l s) : Sound l s := by
  refine ⟨h.running, h.nodup, fun key hkey => ?_⟩
  exact UInt32.le_iff_toNat_le.mpr ((h.mem_taken key).mp hkey).1

/-- A thread reads below the number of keys, so it reads what is stored unless the record is
being inserted. -/
theorem Ordered.stored_counter_iff (h : Ordered l s) (i : Fin T) :
    s.stored (s.thread i).sequentialCounter = true ↔ Settled l s (.readRecord i) := by
  rw [h.stored_iff, Settled, and_iff_right (h.bounded i).counter]

/-- As long as there is a key left, the next one is new. -/
theorem Ordered.next_eq (h : Ordered l s) (hroom : s.keys l < 2 ^ 32) :
    s.nextInsertKey.toNat = s.keys l := by
  rw [h.next, Nat.mod_eq_of_lt hroom]

theorem Bounded.mono {n m : Nat} {b : YCSBBenchmark} (h : Bounded n b) (hnm : n ≤ m) :
    Bounded m b := ⟨Nat.le_trans h.records hnm, Nat.lt_of_lt_of_le h.counter hnm⟩

/-- The shared counter counts, as long as it has not wrapped. -/
theorem Ordered.next_eq_iff (h : Ordered l s) (hroom : s.keys l < 2 ^ 32) (key : UInt32) :
    s.nextInsertKey = key ↔ s.keys l = key.toNat := by
  rw [← h.next_eq hroom, UInt32.toNat_inj]

/-- The next key is a new one. -/
theorem Ordered.next_not_mem (h : Ordered l s) (hroom : s.keys l < 2 ^ 32) :
    s.nextInsertKey ∉ s.taken := by
  intro hmem
  have hlt := ((h.mem_taken _).mp hmem).2
  rw [h.next_eq hroom] at hlt
  exact Nat.lt_irrefl _ hlt

theorem not_flying_of_idle (h : (s.thread i).stage = .idle) (key : UInt32) : ¬s.Flying i key := by
  rw [Flying, h]
  nofun

/-- The insert that begins is under way besides the others. -/
theorem flying_takeKey (hidle : (s.thread i).stage = .idle) {j : Fin T} {key : UInt32} :
    Flying (s.setThread i { s.thread i with stage := .inserting s.nextInsertKey }) j key ↔
      j = i ∧ s.nextInsertKey = key ∨ s.Flying j key := by
  rw [flying_setThread, Stage.inserting.injEq]
  by_cases hj : j = i
  · subst hj
    simp [not_flying_of_idle hidle]
  · simp [hj]

/-- Taking a key keeps the order. -/
theorem Ordered.takeKey (h : Ordered l s) (hroom : Settled l s (.takeKey i))
    (hs : step s (.takeKey i) = some t) : Ordered l t := by
  obtain ⟨hidle, rfl⟩ := step_takeKey hs
  have heq := h.next_eq_iff hroom
  have hnew := h.next_not_mem hroom
  constructor
  case running => exact h.running
  case room => exact hroom
  case next =>
    have hwrap := UInt32.toNat_add s.nextInsertKey 1
    rw [h.next_eq hroom] at hwrap
    exact hwrap
  case nodup => exact List.nodup_cons.mpr ⟨hnew, h.nodup⟩
  case mem_taken =>
    intro key
    have hle : l.records.toNat ≤ s.keys l := Nat.le_add_right ..
    rw [List.mem_cons, eq_comm, heq, h.mem_taken]
    change _ ↔ _ ∧ key.toNat < s.keys l + 1
    omega
  case stored_iff =>
    intro key
    change s.stored key = true ↔ key.toNat < s.keys l + 1 ∧ _
    rw [h.stored_iff]
    constructor
    · rintro ⟨hlt, hfree⟩
      refine ⟨Nat.lt_succ_of_lt hlt, fun j hj => ?_⟩
      rcases (flying_takeKey hidle).mp hj with ⟨_, hkey⟩ | hj
      · exact absurd ((heq key).mp hkey) (Nat.ne_of_gt hlt)
      · exact hfree j hj
    · rintro ⟨hlt, hfree⟩
      have hkey : s.keys l ≠ key.toNat := fun hkey =>
        hfree i ((flying_takeKey hidle).mpr (.inl ⟨rfl, (heq key).mpr hkey⟩))
      exact ⟨by omega, fun j hj => hfree j ((flying_takeKey hidle).mpr (.inr hj))⟩
  case flying =>
    intro j key hj
    rcases (flying_takeKey hidle).mp hj with ⟨_, rfl⟩ | hj
    · exact List.mem_cons_self
    · exact List.mem_cons_of_mem _ (h.flying j key hj)
  case single =>
    intro j j' key hj hj'
    rcases (flying_takeKey hidle).mp hj with ⟨rfl, rfl⟩ | hj
    · rcases (flying_takeKey hidle).mp hj' with ⟨rfl, _⟩ | hj'
      · rfl
      · exact absurd (h.flying j' _ hj') hnew
    · rcases (flying_takeKey hidle).mp hj' with ⟨_, rfl⟩ | hj'
      · exact absurd (h.flying j _ hj) hnew
      · exact h.single j j' key hj hj'
  case bounded =>
    intro j
    dsimp only
    rw [setThread_thread]
    split
    · have hi := h.bounded i
      have hrecords := hi.records
      rw [if_pos hidle] at hrecords
      exact ⟨Nat.succ_le_succ hrecords, Nat.lt_succ_of_lt hi.counter⟩
    · exact (h.bounded j).mono (Nat.le_succ _)

/-- So does storing its record. -/
theorem Ordered.insertRecord (h : Ordered l s) (hs : step s (.insertRecord i) = some t) :
    Ordered l t := by
  obtain ⟨key, hkey, rfl⟩ := step_insertRecord hs
  have hflying : ∀ j key', Flying (s.setThread i { s.thread i with stage := .inserted }) j key' ↔
      j ≠ i ∧ s.Flying j key' := by
    intro j key'
    rw [flying_setThread]
    simp
  -- the insert that completes is the only one of its key
  have hlast : ∀ j, j ≠ i → ¬s.Flying j key := fun j hj hf => hj (h.single j i key hf hkey)
  constructor
  case running => exact h.running
  case room => exact h.room
  case next => exact h.next
  case nodup => exact h.nodup
  case mem_taken => exact h.mem_taken
  case stored_iff =>
    intro key'
    by_cases hk : key' = key
    · subst hk
      refine iff_of_true (Function.update_self ..) ⟨?_, fun j hj => ?_⟩
      · exact ((h.mem_taken key').mp (h.flying i key' hkey)).2
      · obtain ⟨hne, hf⟩ := (hflying j key').mp hj
        exact hlast j hne hf
    · have hi : ¬s.Flying i key' := fun hf => hk (Stage.inserting.inj (hf.symm.trans hkey))
      change Function.update s.stored key true key' = true ↔ _
      rw [Function.update_of_ne hk, h.stored_iff]
      refine and_congr_right fun _ => forall_congr' fun j => not_congr ?_
      refine Iff.trans ?_ (hflying j key').symm
      refine ⟨fun hf => ⟨?_, hf⟩, And.right⟩
      rintro rfl
      exact hi hf
  case flying =>
    intro j key' hj
    exact h.flying j key' ((hflying j key').mp hj).2
  case single =>
    intro j j' key' hj hj'
    exact h.single j j' key' ((hflying j key').mp hj).2 ((hflying j' key').mp hj').2
  case bounded =>
    intro j
    dsimp only
    rw [setThread_thread]
    split
    · have hi := h.bounded i
      have hrecords := hi.records
      rw [if_neg (by rw [hkey]; nofun)] at hrecords
      exact ⟨hrecords, hi.counter⟩
    · exact h.bounded j

/-- A thread that is not inserting may count, and move on in its sequence. -/
theorem Ordered.setThread (h : Ordered l s) (hstage : ∀ key, ¬s.Flying i key)
    {b : YCSBBenchmark} (hb : b.stage = .idle) (hbound : Bounded (s.keys l) b) :
    Ordered l (s.setThread i b) := by
  have hflying : ∀ j key, (s.setThread i b).Flying j key ↔ s.Flying j key := by
    intro j key
    rw [flying_setThread, hb]
    by_cases hj : j = i
    · subst hj
      simp [hstage]
    · simp [hj]
  refine ⟨h.running, h.room, h.next, h.nodup, h.mem_taken, fun key => ?_, fun j key hj => ?_,
    fun j j' key hj hj' => ?_, fun j => ?_⟩
  · simp only [hflying]
    exact h.stored_iff key
  · exact h.flying j key ((hflying j key).mp hj)
  · exact h.single j j' key ((hflying j key).mp hj) ((hflying j' key).mp hj')
  · rw [setThread_thread]
    split
    · exact hbound
    · exact h.bounded j

/-- So does counting it. -/
theorem Ordered.countRecord (h : Ordered l s) (hs : step s (.countRecord i) = some t) :
    Ordered l t := by
  obtain ⟨hinserted, rfl⟩ := step_countRecord hs
  have hi := h.bounded i
  have hrecords := hi.records
  rw [if_neg (by rw [hinserted]; nofun)] at hrecords
  refine h.setThread (fun key hf => ?_) rfl ⟨?_, hi.counter⟩
  · rw [Flying, hinserted] at hf
    cases hf
  · -- the count may wrap around, which makes it smaller still
    rw [if_pos rfl, UInt32.toNat_add, Nat.add_zero]
    exact Nat.le_trans (Nat.mod_le _ _) hrecords

/-- The loop over the keys stays in range. -/
theorem nextCounter_lt {n : Nat} {b : YCSBBenchmark} (h : Bounded n b) :
    b.nextCounter.toNat < n := by
  rw [YCSBBenchmark.nextCounter]
  split
  · exact Nat.lt_of_le_of_lt (Nat.zero_le _) h.counter
  · next hlt =>
    rw [UInt32.not_le, UInt32.lt_iff_toNat_lt] at hlt
    have := h.records
    omega

/-- So does reading. -/
theorem Ordered.readRecord (h : Ordered l s) (hsettled : Settled l s (.readRecord i))
    (hs : step s (.readRecord i) = some t) : Ordered l t := by
  obtain ⟨hidle, rfl⟩ := step_readRecord hs
  have hi := h.bounded i
  rw [if_pos ((h.stored_counter_iff i).mpr hsettled)]
  exact h.setThread (not_flying_of_idle hidle) hidle ⟨hi.records, nextCounter_lt hi⟩

/-- So every step that is settled does. -/
theorem Ordered.step {op : YcsbOp T} (h : Ordered l s) (hop : Settled l s op)
    (hs : s.step op = some t) : Ordered l t := by
  cases op with
  | takeKey i => exact h.takeKey hop hs
  | insertRecord i => exact h.insertRecord hs
  | countRecord i => exact h.countRecord hs
  | readRecord i => exact h.readRecord hop hs

/-- A step that is not settled reads what is not stored, or takes the first key again. -/
theorem Ordered.settled {op : YcsbOp T} (h : Ordered l s) (hs : s.step op = some t)
    (ht : Sound l t) : Settled l s op := by
  obtain ⟨hrunning, _, hnew⟩ := ht
  cases op with
  | insertRecord i | countRecord i => trivial
  | takeKey i =>
    obtain ⟨_, rfl⟩ := step_takeKey hs
    by_contra hfull
    have hkeys : s.keys l = 2 ^ 32 := Nat.le_antisymm h.room (Nat.not_lt.mp hfull)
    have hwrap : s.nextInsertKey.toNat = 0 := by simp only [h.next, hkeys, Nat.mod_self]
    have hle := UInt32.le_iff_toNat_le.mp (hnew s.nextInsertKey List.mem_cons_self)
    have hpos := l.records_pos i
    omega
  | readRecord i =>
    obtain ⟨_, rfl⟩ := step_readRecord hs
    rw [← h.stored_counter_iff]
    by_contra hmissing
    rw [if_neg hmissing] at hrunning
    cases hrunning

/-- In every state of a run no read has failed and no key was used twice, if and only if no
read is of a record that a thread is inserting, and every insert finds a key left. -/
theorem sound_iff_settled (l : Launch T) (ops : List (YcsbOp T)) :
    Run.Always step (Sound l) l.initial ops ↔ Run.EachStep step (Settled l) l.initial ops := by
  apply Run.always_iff_eachStep (I := Ordered l)
  · exact fun s h => h.sound
  · exact fun s op t h hop hs => h.step hop hs
  · exact fun s op t h hs ht => h.settled hs ht
  · exact ordered_initial l

/-- Two threads behind the last of the loaded records. -/
def lastRecord : Launch 2 := ⟨1000, fun _ => 999, fun _ => by decide⟩

/-- A thread takes a key, the other one takes the next, stores its record and counts it, and
reads on to the record that is not there yet. -/
theorem not_sound_overtaken :
    ¬Run.Always step (Sound lastRecord) lastRecord.initial
      [.takeKey 0, .takeKey 1, .insertRecord 1, .countRecord 1, .readRecord 1,
        .readRecord 1] := by
  intro h
  have hthrown : (Run.exec step lastRecord.initial [.takeKey 0, .takeKey 1, .insertRecord 1,
      .countRecord 1, .readRecord 1, .readRecord 1]).map thrown = some true := by
    decide +kernel
  obtain ⟨t, hexec, ht⟩ := Option.map_eq_some_iff.mp hthrown
  have hsound := (h.last hexec).1
  rw [ht] at hsound
  cases hsound

end Workload

end CachelibArchive.Backend
