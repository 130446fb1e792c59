import CachelibArchive.Backend.RandomString
import CachelibArchive.Core.CString
import CachelibArchive.Core.Trace

/-!
# The benchmark on one thread

`main` loads the table, and then runs the benchmark as often as it is told to, with a clean-up
behind each run. On one thread the records a run counts are the records there are, so whatever
is drawn, every key that is read has a record. On a backend that keeps a table every read then
returns the fields that were last inserted under its key, and every run starts from the table as
it was loaded.
-/

namespace CachelibArchive.Backend

variable {cfg : Config} {W : Type}

/-! ## Backends -/

/-- An implementation of the interface `Backend`, on stores of some type; `evict` is what the
cache server drops by itself, and `cleanUp` is told the value of `g_next_insert_key`. -/
structure Implementation (cfg : Config) (W : Type) where
  insertRecord : W → Int → Row cfg → Answer × W
  readRecord : W → Int → Answer × W
  cleanUp : W → Int → W
  evict : W → List CString → W

/-- The table `t` without the rows from `MAX_RECORDS` on. -/
def loadedPart (t : Int → Option (Row cfg)) : Int → Option (Row cfg) := fun key =>
  if (cfg.maxRecords : Int) ≤ key then none else t key

/-- The implementation keeps a table: `R` says which one a store holds. -/
structure Implements (b : Implementation cfg W) (R : W → (Int → Option (Row cfg)) → Prop) :
    Prop where
  insert : ∀ {w t key}, R w t → t key = none → ∀ row, ∃ w',
    b.insertRecord w key row = (.ok (true, []), w') ∧ R w' (Function.update t key (some row))
  read : ∀ {w t key row}, R w t → t key = some row → ∃ w',
    b.readRecord w key = (.ok (true, row.values), w') ∧ R w' t
  cleanUp : ∀ {w t next}, R w t → (∀ key, next ≤ key → t key = none) →
    R (b.cleanUp w next) (loadedPart t)
  evict : ∀ {w t} keys, R w t → R (b.evict w keys) t

/-! ## The benchmark -/

/-- Queries with what they were answered. -/
abbrev QueryLog (cfg : Config) := List (Query (Row cfg) × Answer)

/-- Where the keys of reads come from. -/
inductive Distribution where
  /-- One of the distributions over the records. -/
  | drawn
  /-- `DISTRIBUTION_SEQUENTIAL` -/
  | sequential

/-- The proportion of reads, and their distribution. -/
structure Workmix where
  /-- `rng() % 100 < query_proportion * 100`, by the remainder -/
  reads : Nat → Bool
  distribution : Distribution

/-- What ends the program early. -/
inductive Failure where
  /-- `Benchmark: step failed` -/
  | stepFailed
  /-- An exception of the backend. -/
  | thrown (t : Thrown)

/-- A `YCSBBenchmark` that runs alone. -/
structure Bench (cfg : Config) (W : Type) where
  /-- What the backend works on. -/
  store : W
  /-- `g_next_insert_key` -/
  nextInsertKey : Int32
  rng : Generator
  /-- What the distribution draws, with its bits. -/
  generator : Generator
  whetherSequence : Bool
  maxQuery : UInt32
  currentQuery : UInt32
  maxRecords : UInt32
  sequentialCounter : UInt32
  unifiedSequentialCounter : UInt32
  /-- The queries so far. -/
  log : QueryLog cfg

/-- A counter behind a read in sequence. -/
def nextInSequence (counter maxRecords : UInt32) : UInt32 :=
  if maxRecords ≤ counter + 1 then 0 else counter + 1

namespace Bench

/-- The key of a read. -/
def readKey (mix : Workmix) (s : Bench cfg W) : UInt32 × Bench cfg W :=
  let key := s.unifiedSequentialCounter
  let s := { s with unifiedSequentialCounter := nextInSequence key s.maxRecords }
  if s.whetherSequence then (key, s)
  else match mix.distribution with
    | .drawn =>
      let (number, generator) := s.generator.next
      (number % s.maxRecords, { s with generator })
    | .sequential =>
      let key := s.sequentialCounter
      (key, { s with sequentialCounter := nextInSequence key s.maxRecords })

/-- The read of a step; no results are as bad as no record. -/
def readStep (b : Implementation cfg W) (mix : Workmix) (s : Bench cfg W) :
    Except Failure (Bench cfg W) :=
  let (key, s) := s.readKey mix
  let (answer, store) := b.readRecord s.store key.toInt32.toInt
  match answer with
  | .error t => .error (.thrown t)
  | .ok (found, results) =>
    if found = true ∧ results ≠ [] then
      .ok { s with
        store
        currentQuery := s.currentQuery + 1
        log := s.log ++ [(.read key.toInt32.toInt, answer)] }
    else .error .stepFailed

/-- The insert of a step. -/
def insertStep (b : Implementation cfg W) (s : Bench cfg W) : Except Failure (Bench cfg W) :=
  let (values, rng) := randomRow cfg s.rng
  let key := s.nextInsertKey.toInt
  let (answer, store) := b.insertRecord s.store key values
  match answer with
  | .error t => .error (.thrown t)
  | .ok (inserted, _) =>
    if inserted = true then
      .ok { s with
        store, rng
        nextInsertKey := s.nextInsertKey + 1
        maxRecords := s.maxRecords + 1
        currentQuery := s.currentQuery + 1
        log := s.log ++ [(.insert key values, answer)] }
    else .error .stepFailed

/-- `YCSBBenchmark::step`, after the cache server has dropped some items; what is not true is
thrown by `Benchmark::run`. -/
def step (b : Implementation cfg W) (mix : Workmix) (dropped : List CString) (s : Bench cfg W) :
    Except Failure (Bench cfg W) :=
  let (number, rng) := s.rng.next
  let s := { s with rng, store := b.evict s.store dropped }
  if mix.reads (number.toNat % 100) then s.readStep b mix else s.insertStep b

/-- `YCSBBenchmark::is_end` -/
def isEnd (s : Bench cfg W) : Bool := s.maxQuery ≠ 0 && s.maxQuery ≤ s.currentQuery

/-- `Benchmark::run`, with a bound on its passes; `none` if they do not suffice. -/
def run (b : Implementation cfg W) (mix : Workmix) (drops : Nat → List CString) :
    Nat → Bench cfg W → Option (Except Failure (Bench cfg W))
  | 0, _ => none
  | passes + 1, s =>
    if s.isEnd then some (.ok s)
    else match s.step b mix (drops s.log.length) with
      | .error f => some (.error f)
      | .ok s => run b mix drops passes s

end Bench

/-! ## The program -/

/-- What a run of the benchmark is given. -/
structure Round where
  rng : Generator
  generator : Generator
  sequentialStartidx : UInt32
  whetherSequence : Bool
  maxQuery : UInt32
  /-- What the cache server drops, by the number of queries before. -/
  drops : Nat → List CString

/-- A benchmark before its first step. -/
def Round.bench (r : Round) (w : W) (log : QueryLog cfg) : Bench cfg W where
  store := w
  nextInsertKey := cfg.maxRecords.toUInt32.toInt32
  rng := r.rng
  generator := r.generator
  whetherSequence := r.whetherSequence
  maxQuery := r.maxQuery
  currentQuery := 0
  maxRecords := cfg.maxRecords.toUInt32
  sequentialCounter := r.sequentialStartidx
  unifiedSequentialCounter := 0
  log := log

/-- The runs of the benchmark, with a clean-up behind each; a pass more than there are queries is
allowed to each. -/
def runRounds (b : Implementation cfg W) (mix : Workmix) :
    W → QueryLog cfg → List Round → Option (Except Failure (W × QueryLog cfg))
  | w, log, [] => some (.ok (w, log))
  | w, log, r :: rounds =>
    match (r.bench w log).run b mix r.drops (r.maxQuery.toNat + 1) with
    | none => none
    | some (.error f) => some (.error f)
    | some (.ok s) => runRounds b mix (b.cleanUp s.store s.nextInsertKey.toInt) s.log rounds

/-- `YCSBBenchmark::load_database` from the record `i` on. -/
def loadFrom (b : Implementation cfg W) (i : Nat) (w : W) (rng : Generator) (log : QueryLog cfg) :
    Nat → Except Failure (Bool × W × QueryLog cfg)
  | 0 => .ok (true, w, log)
  | left + 1 =>
    let (values, rng) := randomRow cfg rng
    let (answer, w) := b.insertRecord w i values
    let log := log ++ [(.insert i values, answer)]
    match answer with
    | .error t => .error (.thrown t)
    | .ok (inserted, _) =>
      if inserted = true then loadFrom b (i + 1) w rng log left else .ok (false, w, log)

/-- The program: the table is loaded, on a backend of its own, and then come the runs. -/
def program (prepare b : Implementation cfg W) (mix : Workmix) (w : W) (rng : Generator)
    (rounds : List Round) : Option (Except Failure (W × QueryLog cfg)) :=
  match loadFrom prepare 0 w rng [] cfg.maxRecords with
  | .error f => some (.error f)
  | .ok (_, w, log) => runRounds b mix w log rounds

/-! ## What is recorded -/

/-- The answer to a query is the right one behind the queries before: an insert is made, and a
read returns the fields that were last inserted under its key. -/
def Answered (before : QueryLog cfg) : Query (Row cfg) × Answer → Prop
  | (.insert _ _, answer) => answer = .ok (true, [])
  | (.read key, answer) => ∃ row ∈ (Query.inserted (before.map Prod.fst) key).getLast?,
      answer = .ok (true, row.values)

/-- All answers were right, and the rows of the table are the last ones inserted. -/
structure Recorded (t : Int → Option (Row cfg)) (log : QueryLog cfg) : Prop where
  latest : ∀ key row, t key = some row →
    (Query.inserted (log.map Prod.fst) key).getLast? = some row
  answered : Trace.AtEach Answered log

namespace Recorded

variable {t : Int → Option (Row cfg)} {log : QueryLog cfg}

theorem insert (h : Recorded t log) (key : Int) (row : Row cfg) :
    Recorded (Function.update t key (some row)) (log ++ [(.insert key row, .ok (true, []))]) := by
  refine ⟨fun key' row' hrow => ?_, Trace.atEach_concat.mpr ⟨h.answered, rfl⟩⟩
  rw [List.map_append, List.map_singleton]
  by_cases hkey : key' = key
  · subst hkey
    rw [Function.update_self] at hrow
    cases hrow
    rw [Query.inserted_snoc_same, List.getLast?_concat]
  · rw [Function.update_of_ne hkey] at hrow
    rw [Query.inserted_snoc_of_ne _ hkey]
    exact h.latest key' row' hrow

theorem read (h : Recorded t log) {key : Int} {row : Row cfg} (hrow : t key = some row) :
    Recorded t (log ++ [(.read key, .ok (true, row.values))]) := by
  refine ⟨fun key' row' hrow' => ?_, Trace.atEach_concat.mpr ⟨h.answered, row, ?_, rfl⟩⟩
  · rw [List.map_append, List.map_singleton, Query.inserted_snoc_read]
    exact h.latest key' row' hrow'
  · exact h.latest key row hrow

end Recorded

/-- The table has a row under each of the first `n` keys and no others. -/
def Filled (t : Int → Option (Row cfg)) (n : Nat) : Prop :=
  ∀ key, (t key).isSome = true ↔ 0 ≤ key ∧ key < n

theorem Filled.insert {t : Int → Option (Row cfg)} {n : Nat} (h : Filled t n) (row : Row cfg) :
    Filled (Function.update t n (some row)) (n + 1) := by
  intro key
  by_cases hkey : key = n
  · subst hkey
    simp
  · rw [Function.update_of_ne hkey, h key]
    omega

theorem Filled.eq_none {t : Int → Option (Row cfg)} {n : Nat} (h : Filled t n) {key : Int}
    (hkey : (n : Int) ≤ key) : t key = none := by
  rw [← Option.not_isSome_iff_eq_none, h key]
  omega

theorem Filled.exists_row {t : Int → Option (Row cfg)} {n key : Nat} (h : Filled t n)
    (hkey : key < n) : ∃ row, t key = some row :=
  Option.isSome_iff_exists.mp ((h key).mpr ⟨Int.natCast_nonneg key, Int.ofNat_lt.mpr hkey⟩)

/-! ## Counters -/

theorem toInt_toInt32 {n : UInt32} (h : n.toNat < 2 ^ 31) : n.toInt32.toInt = n.toNat := by
  have hbits : 2 * n.toBitVec.toNat < 2 ^ 32 := by
    rw [UInt32.toNat_toBitVec]
    omega
  exact BitVec.toInt_eq_toNat_of_lt hbits

theorem nextInSequence_lt {counter maxRecords : UInt32} (hc : counter.toNat < maxRecords.toNat) :
    (nextInSequence counter maxRecords).toNat < maxRecords.toNat := by
  unfold nextInSequence
  split_ifs with hle
  · exact Nat.lt_of_le_of_lt (Nat.zero_le _) hc
  · rwa [UInt32.not_le, UInt32.lt_iff_toNat_lt] at hle

/-! ## One run -/

namespace Bench

variable {b : Implementation cfg W} {R : W → (Int → Option (Row cfg)) → Prop}
  {t : Int → Option (Row cfg)} {s : Bench cfg W}

/-- What a benchmark keeps to: it works on the table `t`, whose rows are the records it counts,
and reads below their number. -/
structure Sound (R : W → (Int → Option (Row cfg)) → Prop) (t : Int → Option (Row cfg))
    (s : Bench cfg W) : Prop where
  stored : R s.store t
  recorded : Recorded t s.log
  filled : Filled t s.maxRecords.toNat
  next : s.nextInsertKey = s.maxRecords.toInt32
  sequential : s.sequentialCounter.toNat < s.maxRecords.toNat
  unified : s.unifiedSequentialCounter.toNat < s.maxRecords.toNat
  room : s.maxRecords.toNat + (s.maxQuery.toNat - s.currentQuery.toNat) < 2 ^ 31

/-- A read changes nothing but counters and generators, and its key is that of a record. -/
theorem readKey_spec (h : Sound R t s) (mix : Workmix) :
    (s.readKey mix).1.toNat < s.maxRecords.toNat ∧ Sound R t (s.readKey mix).2 ∧
      (s.readKey mix).2.maxRecords = s.maxRecords ∧ (s.readKey mix).2.store = s.store ∧
      (s.readKey mix).2.log = s.log ∧ (s.readKey mix).2.maxQuery = s.maxQuery ∧
      (s.readKey mix).2.currentQuery = s.currentQuery := by
  obtain ⟨stored, recorded, filled, next, sequential, unified, room⟩ := h
  have hpos : 0 < s.maxRecords.toNat := Nat.lt_of_le_of_lt (Nat.zero_le _) unified
  unfold readKey
  dsimp only
  split_ifs
  · exact ⟨unified, ⟨stored, recorded, filled, next, sequential, nextInSequence_lt unified, room⟩,
      rfl, rfl, rfl, rfl, rfl⟩
  · cases mix.distribution with
    | drawn =>
      refine ⟨?_, ⟨stored, recorded, filled, next, sequential, nextInSequence_lt unified, room⟩,
        rfl, rfl, rfl, rfl, rfl⟩
      rw [UInt32.toNat_mod]
      exact Nat.mod_lt _ hpos
    | sequential =>
      exact ⟨sequential, ⟨stored, recorded, filled, next, nextInSequence_lt sequential,
        nextInSequence_lt unified, room⟩, rfl, rfl, rfl, rfl, rfl⟩

/-- One query further, with the rows of before still in the table. -/
structure Advanced (R : W → (Int → Option (Row cfg)) → Prop) (t : Int → Option (Row cfg))
    (s : Bench cfg W) (t' : Int → Option (Row cfg)) (s' : Bench cfg W) : Prop where
  sound : Sound R t' s'
  kept : ∀ key, (t key).isSome = true → t' key = t key
  maxQuery : s'.maxQuery = s.maxQuery
  currentQuery : s'.currentQuery.toNat = s.currentQuery.toNat + 1
  length : s'.log.length = s.log.length + 1

/-- The next query takes no place from the queries behind it. -/
theorem toNat_succ {n m : UInt32} (h : n.toNat < m.toNat) : (n + 1).toNat = n.toNat + 1 := by
  have hlt := m.toNat_lt
  rw [UInt32.toNat_add]
  exact Nat.mod_eq_of_lt (by simpa using by omega)

/-- Every read finds its record. -/
theorem readStep_spec (hb : Implements b R) (hfields : 0 < cfg.maxFields) (h : Sound R t s)
    (hquery : s.currentQuery.toNat < s.maxQuery.toNat) (mix : Workmix) :
    ∃ s', s.readStep b mix = .ok s' ∧ Advanced R t s t s' := by
  obtain ⟨hkey, hsound, hrecords, -, hlog, hmax, hcurrent⟩ := readKey_spec h mix
  obtain ⟨stored, recorded, filled, next, sequential, unified, room⟩ := hsound
  have hint : (s.readKey mix).1.toInt32.toInt = (s.readKey mix).1.toNat :=
    toInt_toInt32 (by have := h.room; omega)
  obtain ⟨row, hrow⟩ := h.filled.exists_row hkey
  obtain ⟨w', hread, hR⟩ := hb.read stored hrow
  have hvalues : row.values ≠ [] := by
    intro hnil
    have hlength := congrArg List.length hnil
    rw [Row.values, strings, List.length_map, row.full] at hlength
    exact Nat.ne_of_gt hfields hlength
  have hsucc := toNat_succ hquery
  refine ⟨{ (s.readKey mix).2 with
    store := w'
    currentQuery := (s.readKey mix).2.currentQuery + 1
    log := (s.readKey mix).2.log ++
      [(.read (s.readKey mix).1.toNat, .ok (true, row.values))] }, ?_, ?_⟩
  · simp only [readStep, hint, hread]
    exact if_pos ⟨trivial, hvalues⟩
  · refine ⟨⟨hR, recorded.read hrow, filled, next, sequential, unified, ?_⟩, fun _ _ => rfl, hmax,
      ?_, ?_⟩
    · simp only [hmax, hcurrent, hrecords, hsucc]
      have := h.room
      omega
    · simp only [hcurrent, hsucc]
    · simp [hlog]

/-- Every insert makes the next record. -/
theorem insertStep_spec (hb : Implements b R) (h : Sound R t s)
    (hquery : s.currentQuery.toNat < s.maxQuery.toNat) :
    ∃ t' s', s.insertStep b = .ok s' ∧ Advanced R t s t' s' := by
  obtain ⟨stored, recorded, filled, next, sequential, unified, room⟩ := h
  have hint : s.nextInsertKey.toInt = s.maxRecords.toNat := by
    rw [next]
    exact toInt_toInt32 (by omega)
  have hnone : t s.maxRecords.toNat = none := filled.eq_none (Int.le_refl _)
  obtain ⟨w', hinsert, hR⟩ := hb.insert stored hnone (randomRow cfg s.rng).1
  have hsucc := toNat_succ hquery
  have hmore : (s.maxRecords + 1).toNat = s.maxRecords.toNat + 1 := by
    rw [UInt32.toNat_add]
    exact Nat.mod_eq_of_lt (by simpa using by omega)
  refine ⟨Function.update t s.maxRecords.toNat (some (randomRow cfg s.rng).1), { s with
    store := w'
    rng := (randomRow cfg s.rng).2
    nextInsertKey := s.nextInsertKey + 1
    maxRecords := s.maxRecords + 1
    currentQuery := s.currentQuery + 1
    log := s.log ++
      [(.insert s.maxRecords.toNat (randomRow cfg s.rng).1, .ok (true, []))] }, ?_, ?_⟩
  · simp only [insertStep, hint, hinsert, if_true]
  · refine ⟨⟨hR, recorded.insert _ _, ?_, ?_, ?_, ?_, ?_⟩, fun key hkey => ?_, rfl, hsucc, by simp⟩
    · rw [hmore]
      exact filled.insert _
    · rw [UInt32.toInt32_add, next]
      rfl
    · rw [hmore]
      exact Nat.lt_succ_of_lt sequential
    · rw [hmore]
      exact Nat.lt_succ_of_lt unified
    · rw [hmore, hsucc]
      dsimp only
      omega
    · apply Function.update_of_ne
      rintro rfl
      rw [hnone] at hkey
      cases hkey

/-- Whatever is drawn and dropped, a step is one query further. -/
theorem step_spec (hb : Implements b R) (hfields : 0 < cfg.maxFields) (h : Sound R t s)
    (hquery : s.currentQuery.toNat < s.maxQuery.toNat) (mix : Workmix) (dropped : List CString) :
    ∃ t' s', s.step b mix dropped = .ok s' ∧ Advanced R t s t' s' := by
  have hsound : Sound R t { s with rng := s.rng.next.2, store := b.evict s.store dropped } :=
    { h with stored := hb.evict dropped h.stored }
  unfold step
  dsimp only
  split_ifs
  · obtain ⟨s', hstep, hadvanced⟩ := readStep_spec hb hfields hsound hquery mix
    exact ⟨t, s', hstep, { hadvanced with }⟩
  · obtain ⟨t', s', hstep, hadvanced⟩ := insertStep_spec hb hsound hquery
    exact ⟨t', s', hstep, { hadvanced with }⟩

/-- The run makes all its queries, and ends. -/
theorem run_spec (hb : Implements b R) (hfields : 0 < cfg.maxFields) (mix : Workmix)
    (drops : Nat → List CString) (h : Sound R t s)
    (hquery : s.currentQuery.toNat ≤ s.maxQuery.toNat) (hmax : s.maxQuery ≠ 0) :
    ∃ t' s', s.run b mix drops (s.maxQuery.toNat - s.currentQuery.toNat + 1) = some (.ok s') ∧
      Sound R t' s' ∧ (∀ key, (t key).isSome = true → t' key = t key) ∧
      s'.log.length = s.log.length + (s.maxQuery.toNat - s.currentQuery.toNat) := by
  generalize hleft : s.maxQuery.toNat - s.currentQuery.toNat = left
  induction left generalizing s t with
  | zero =>
    have hend : s.isEnd = true := by
      have hle : s.maxQuery ≤ s.currentQuery := UInt32.le_iff_toNat_le.mpr (by omega)
      simp [isEnd, hmax, hle]
    refine ⟨t, s, ?_, h, fun _ _ => rfl, rfl⟩
    rw [run, if_pos hend]
  | succ left ih =>
    have hlt : s.currentQuery.toNat < s.maxQuery.toNat := by omega
    have hend : ¬ s.isEnd = true := by
      have hnot : ¬ s.maxQuery ≤ s.currentQuery := by
        rw [UInt32.le_iff_toNat_le]
        omega
      simp [isEnd, hnot]
    obtain ⟨t₁, s₁, hstep, hadvanced⟩ :=
      step_spec hb hfields h hlt mix (drops s.log.length)
    obtain ⟨hsound, hkept, hsame, hcurrent, hlength⟩ := hadvanced
    obtain ⟨t', s', hrun, hsound', hkept', hlength'⟩ := ih hsound (by rw [hsame]; omega)
      (by rw [hsame]; exact hmax) (by rw [hsame]; omega)
    refine ⟨t', s', ?_, hsound', fun key hkey => ?_, by omega⟩
    · rw [run, if_neg hend, hstep]
      exact hrun
    · have hfirst := hkept key hkey
      rw [hkept' key (by rwa [hfirst]), hfirst]

end Bench

/-! ## The whole program -/

variable {prepare b : Implementation cfg W} {R : W → (Int → Option (Row cfg)) → Prop}

/-- The loaded table has the records below `MAX_RECORDS` and no others. -/
theorem loadedPart_eq {t t' : Int → Option (Row cfg)} (h : Filled t cfg.maxRecords)
    (hkept : ∀ key, (t key).isSome = true → t' key = t key)
    (hnone : ∀ key < 0, t' key = none) : loadedPart t' = t := by
  ext1 key
  unfold loadedPart
  split_ifs with hle
  · exact (h.eq_none hle).symm
  · by_cases hpos : 0 ≤ key
    · exact hkept key ((h key).mpr ⟨hpos, by omega⟩)
    · have hnot : ¬ (t key).isSome = true := by
        rw [h key]
        omega
      rw [hnone key (by omega), Option.not_isSome_iff_eq_none.mp hnot]

/-- What a run of the benchmark must be given. -/
structure Round.Valid (cfg : Config) (r : Round) : Prop where
  startidx : r.sequentialStartidx.toNat < cfg.maxRecords
  queries : r.maxQuery ≠ 0
  room : cfg.maxRecords + r.maxQuery.toNat < 2 ^ 31

theorem Round.sound {r : Round} (h : r.Valid cfg) {w : W} {t : Int → Option (Row cfg)}
    {log : QueryLog cfg} (hw : R w t) (hlog : Recorded t log) (ht : Filled t cfg.maxRecords) :
    Bench.Sound R t (r.bench w log) := by
  obtain ⟨hstart, -, hroom⟩ := h
  have hrecords : cfg.maxRecords.toUInt32.toNat = cfg.maxRecords := by
    rw [Nat.toUInt32_eq, UInt32.toNat_ofNat']
    exact Nat.mod_eq_of_lt (by omega)
  refine ⟨hw, hlog, ?_, rfl, ?_, ?_, ?_⟩
  · simpa [Round.bench, hrecords] using ht
  · simpa [Round.bench, hrecords] using hstart
  · simp only [Round.bench, hrecords]
    exact Nat.lt_of_le_of_lt (Nat.zero_le _) hstart
  · simpa [Round.bench, hrecords] using hroom

/-- Every run makes all its queries, and the clean-up behind it leaves the table as it was loaded. -/
theorem runRounds_spec (hb : Implements b R) (hfields : 0 < cfg.maxFields) (mix : Workmix)
    {rounds : List Round} (hrounds : ∀ r ∈ rounds, r.Valid cfg) {w : W}
    {t : Int → Option (Row cfg)} {log : QueryLog cfg} (hw : R w t) (hlog : Recorded t log)
    (ht : Filled t cfg.maxRecords) :
    ∃ w' log', runRounds b mix w log rounds = some (.ok (w', log')) ∧ R w' t ∧ Recorded t log' ∧
      log'.length = log.length + (rounds.map fun r => r.maxQuery.toNat).sum := by
  induction rounds generalizing w log with
  | nil => exact ⟨w, log, rfl, hw, hlog, by simp⟩
  | cons r rounds ih =>
    have hvalid := hrounds r List.mem_cons_self
    obtain ⟨t', s', hrun, hsound, hkept, hlength⟩ := Bench.run_spec hb hfields mix r.drops
      (Round.sound hvalid hw hlog ht) (Nat.zero_le _) hvalid.queries
    have hint : s'.nextInsertKey.toInt = s'.maxRecords.toNat := by
      rw [hsound.next]
      exact toInt_toInt32 (by have := hsound.room; omega)
    have hclean : R (b.cleanUp s'.store s'.nextInsertKey.toInt) (loadedPart t') :=
      hb.cleanUp hsound.stored fun key hkey => hsound.filled.eq_none (by omega)
    rw [loadedPart_eq ht hkept fun key hkey => Option.not_isSome_iff_eq_none.mp
      fun hsome => by have := (hsound.filled key).mp hsome; omega] at hclean
    have hrecorded : Recorded t s'.log := by
      refine ⟨fun key row hrow => hsound.recorded.latest key row ?_, hsound.recorded.answered⟩
      rw [hkept key (by rw [hrow]; rfl), hrow]
    obtain ⟨w₂, log₂, hrest, hw₂, hlog₂, hlength₂⟩ :=
      ih (fun r hr => hrounds r (List.mem_cons_of_mem _ hr)) hclean hrecorded
    refine ⟨w₂, log₂, ?_, hw₂, hlog₂, ?_⟩
    · rw [runRounds, show r.maxQuery.toNat + 1 =
        (r.bench w log).maxQuery.toNat - (r.bench w log).currentQuery.toNat + 1 from rfl, hrun]
      exact hrest
    · have hqueries : (r.bench w log).maxQuery.toNat - (r.bench w log).currentQuery.toNat =
        r.maxQuery.toNat := rfl
      rw [hlength₂, hlength, hqueries, List.map_cons, List.sum_cons]
      simp only [Round.bench]
      omega

/-- Loading makes every record. -/
theorem loadFrom_spec (hb : Implements prepare R) (left : Nat) {i : Nat} {w : W} (rng : Generator)
    {t : Int → Option (Row cfg)} {log : QueryLog cfg} (hw : R w t) (hlog : Recorded t log)
    (ht : Filled t i) :
    ∃ w' t' log', loadFrom prepare i w rng log left = .ok (true, w', log') ∧ R w' t' ∧
      Recorded t' log' ∧ Filled t' (i + left) ∧ log'.length = log.length + left := by
  induction left generalizing i w rng t log with
  | zero => exact ⟨w, t, log, rfl, hw, hlog, ht, rfl⟩
  | succ left ih =>
    obtain ⟨w₁, hinsert, hw₁⟩ := hb.insert hw (ht.eq_none (Int.le_refl _)) (randomRow cfg rng).1
    obtain ⟨w', t', log', hload, hw', hlog', ht', hlength⟩ :=
      ih (randomRow cfg rng).2 hw₁ (hlog.insert i (randomRow cfg rng).1) (ht.insert _)
    refine ⟨w', t', log', ?_, hw', hlog', ?_, ?_⟩
    · simp only [loadFrom, hinsert, if_true]
      exact hload
    · rwa [Nat.add_right_comm] at ht'
    · simp only [List.length_append, List.length_singleton] at hlength
      omega

/-- On backends that keep a table, the program makes all its queries, whatever is drawn; every
read returns the fields that were last inserted under its key, and the runs leave the table as it
was loaded. -/
theorem program_spec {R₀ : W → (Int → Option (Row cfg)) → Prop} (hprepare : Implements prepare R₀)
    (hb : Implements b R) (hR : ∀ {w t}, R₀ w t → R w t) (hfields : 0 < cfg.maxFields)
    (mix : Workmix) {w : W} (hw : R₀ w fun _ => none) (rng : Generator) {rounds : List Round}
    (hrounds : ∀ r ∈ rounds, r.Valid cfg) :
    ∃ w₁ log₁ w' log t, loadFrom prepare 0 w rng [] cfg.maxRecords = .ok (true, w₁, log₁) ∧
      program prepare b mix w rng rounds = some (.ok (w', log)) ∧
      Trace.AtEach Answered log ∧ R₀ w₁ t ∧ R w' t ∧ Filled t cfg.maxRecords ∧
      log.length = cfg.maxRecords + (rounds.map fun r => r.maxQuery.toNat).sum := by
  have hnil : Recorded (fun _ => none : Int → Option (Row cfg)) [] :=
    ⟨fun _ _ h => absurd h (Option.some_ne_none _).symm, Trace.atEach_nil _⟩
  have hempty : Filled (fun _ => none : Int → Option (Row cfg)) 0 := fun key => by simp
  obtain ⟨w₁, t, log₁, hload, hw₁, hlog₁, ht, hlength₁⟩ :=
    loadFrom_spec hprepare cfg.maxRecords rng hw hnil hempty
  rw [Nat.zero_add] at ht
  obtain ⟨w', log, hrun, hw', hlog, hlength⟩ :=
    runRounds_spec hb hfields mix hrounds (hR hw₁) hlog₁ ht
  refine ⟨w₁, log₁, w', log, t, hload, ?_, hlog.answered, hw₁, hw', ht, ?_⟩
  · rw [program, hload]
    exact hrun
  · rw [hlength, hlength₁, List.length_nil, Nat.zero_add]

end CachelibArchive.Backend
