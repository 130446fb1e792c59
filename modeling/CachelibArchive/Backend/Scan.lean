import CachelibArchive.Backend.Record
import CachelibArchive.Backend.Ycsb
import Mathlib.Data.List.Infix
import Mathlib.Data.Rat.Defs
import Mathlib.Algebra.Order.Ring.Rat

/-!
# Sequential scans

One thread of the program built with `DISTRIBUTION_SEQUENTIAL`: the iterations of the warm-up
and then those of the measured runs, each with a benchmark of its own that starts where `main`
says. As long as no query fails, the reads of the first iteration run once through the keys,
and those of the others go round them without a gap.

How many warm-up iterations there are is decided by the hit rates, and is an argument here.
A key is an `int`, the counters are `unsigned int`.
-/

namespace CachelibArchive.Backend.Scan

/-- The fields of a record. -/
abbrev Values := List (List UInt8)

/-- The macros of the configuration; the last is `MAX_QUERIES` or the value of `--maxquery`, an
`int` taken with its bits. -/
structure Settings where
  maxRecords : UInt32
  queryProportion : Rat
  currentMaxQueries : UInt32

/-- What the program does not decide: the numbers drawn and the strings made in front of a
query, and what the backend answers to the last of the queries. -/
structure Surroundings where
  rng : List (Query Values) → UInt32
  randomFastStrings : List (Query Values) → Values
  answer : List (Query Values) → Answer

/-- `g_next_insert_key`, and all queries so far. -/
structure World where
  nextInsertKey : Int32
  asked : List (Query Values)

def World.ask (w : World) (q : Query Values) : World := { w with asked := w.asked ++ [q] }

/-- What a benchmark keeps between steps. -/
structure YCSBBenchmark where
  sequentialCounter : UInt32
  currentQuery : UInt32
  maxRecords : UInt32
  maxQuery : UInt32
  queryProportion : Rat
  whetherSequence : Bool
  unifiedSequentialCounter : UInt32

/-- How an iteration ends. -/
inductive Ending where
  | finished
  | thrown
  | outOfFuel
  deriving DecidableEq

/-- The counter behind a read. -/
def advance (maxRecords counter : UInt32) : UInt32 :=
  Backend.YCSBBenchmark.nextCounter ⟨maxRecords, counter, .idle⟩

/-- The conversion of an `unsigned int` to an `int`. -/
def toInt (u : UInt32) : Int := u.toInt32.toInt

/-- `read_record` succeeds: the backend says so, and there are results. -/
def readSucceeds : Answer → Bool
  | .ok (true, results) => results.length ≠ 0
  | _ => false

/-- `insert_record` succeeds. -/
def insertSucceeds : Answer → Bool
  | .ok (true, _) => true
  | _ => false

namespace YCSBBenchmark

/-- The constructor. -/
def new (cfg : Settings) (sequentialStartidx : UInt32) (whetherSequence : Bool)
    (currQuery : UInt32) : YCSBBenchmark where
  sequentialCounter := if whetherSequence then 0 else sequentialStartidx
  currentQuery := 0
  maxRecords := cfg.maxRecords
  maxQuery := currQuery
  queryProportion := cfg.queryProportion
  whetherSequence := whetherSequence
  unifiedSequentialCounter := 0

/-- `is_end` -/
def isEnd (b : YCSBBenchmark) : Bool :=
  if b.maxQuery = 0 then false else b.currentQuery ≥ b.maxQuery

/-- The key of a read, and the counters behind it. -/
def nextKey (b : YCSBBenchmark) : UInt32 × YCSBBenchmark :=
  let key := b.unifiedSequentialCounter
  let b := { b with unifiedSequentialCounter := advance b.maxRecords b.unifiedSequentialCounter }
  if b.whetherSequence then (key, b)
  else (b.sequentialCounter,
    { b with sequentialCounter := advance b.maxRecords b.sequentialCounter })

/-- `step`: its query, and the benchmark behind it unless the query fails. -/
def step (env : Surroundings) (b : YCSBBenchmark) (w : World) :
    Query Values × World × Option YCSBBenchmark :=
  if ((env.rng w.asked % 100).toNat : Rat) < b.queryProportion * 100 then
    let (key, b) := b.nextKey
    let query := .read (toInt key)
    let w := w.ask query
    (query, w, if readSucceeds (env.answer w.asked) then
      some { b with currentQuery := b.currentQuery + 1 } else none)
  else
    let query := .insert w.nextInsertKey.toInt (env.randomFastStrings w.asked)
    let w := { w with nextInsertKey := w.nextInsertKey + 1 }.ask query
    (query, w, if insertSucceeds (env.answer w.asked) then
      some { b with maxRecords := b.maxRecords + 1, currentQuery := b.currentQuery + 1 } else none)

/-- `Benchmark::run`: the queries of the loop, how it ends, and the world behind it. -/
def run (env : Surroundings) : Nat → YCSBBenchmark → World → List (Query Values) × Ending × World
  | 0, _, w => ([], .outOfFuel, w)
  | fuel + 1, b, w =>
    if b.isEnd then ([], .finished, w)
    else match b.step env w with
      | (query, w, none) => ([query], .thrown, w)
      | (query, w, some b) =>
        let (queries, ending, w) := run env fuel b w
        (query :: queries, ending, w)

end YCSBBenchmark

/-- The two loops of `main`. -/
inductive Phase where
  | warmup
  | run

/-- What `main` keeps between iterations. -/
structure Main where
  sequentialStartidx : UInt32
  iterate : Bool
  world : World

/-- An iteration of either loop with one thread. -/
def Main.iteration (env : Surroundings) (cfg : Settings) (fuel : Nat) (phase : Phase) (s : Main) :
    List (Query Values) × Ending × Main :=
  let world := { s.world with nextInsertKey := cfg.maxRecords.toInt32 }
  match phase, s.iterate with
  | .warmup, true =>
    let benchmark := YCSBBenchmark.new cfg s.sequentialStartidx true cfg.maxRecords
    let (queries, ending, world) := benchmark.run env fuel world
    (queries, ending, ⟨(s.sequentialStartidx + cfg.maxRecords) % cfg.maxRecords, false, world⟩)
  | _, _ =>
    let benchmark := YCSBBenchmark.new cfg s.sequentialStartidx false cfg.currentMaxQueries
    let (queries, ending, world) := benchmark.run env fuel world
    (queries, ending,
      ⟨(s.sequentialStartidx + cfg.currentMaxQueries) % cfg.maxRecords, s.iterate, world⟩)

/-- One iteration after another, until one does not finish: the queries of each of them, and
how the last one ends. -/
def Main.iterations (env : Surroundings) (cfg : Settings) (fuel : Nat) :
    List Phase → Main → List (List (Query Values)) × Ending
  | [], _ => ([], .finished)
  | phase :: phases, s =>
    match s.iteration env cfg fuel phase with
    | (queries, .finished, s) =>
      let (later, ending) := iterations env cfg fuel phases s
      (queries :: later, ending)
    | (queries, ending, _) => ([queries], ending)

/-- `main` with so many warm-up iterations and measured runs. -/
def main (env : Surroundings) (cfg : Settings) (fuel warmups runs : Nat) :
    List (List (Query Values)) × Ending :=
  Main.iterations env cfg fuel (List.replicate warmups .warmup ++ List.replicate runs .run)
    ⟨0, true, ⟨0, []⟩⟩

/-! ## Keys in a circle -/

/-- So many numbers from a start on, modulo `n`. -/
def cycle (n start len : Nat) : List Nat := (List.range len).map fun k => (start + k) % n

theorem cycle_add (n start a b : Nat) :
    cycle n start (a + b) = cycle n start a ++ cycle n ((start + a) % n) b := by
  simp only [cycle, List.range_add, List.map_append, List.map_map, Function.comp_def,
    Nat.mod_add_mod, Nat.add_assoc]

theorem cycle_one {n start : Nat} (h : start < n) : cycle n start 1 = [start] := by
  rw [cycle, List.range_one, List.map_singleton, Nat.add_zero, Nat.mod_eq_of_lt h]

/-- Below a bound, counting on does not wrap around. -/
theorem toNat_add_one {u bound : UInt32} (h : u.toNat < bound.toNat) :
    (u + 1).toNat = u.toNat + 1 := by
  have hlt := bound.toNat_lt
  rw [UInt32.toNat_add]
  exact Nat.mod_eq_of_lt (show u.toNat + 1 < 2 ^ 32 by omega)

theorem toNat_advance {maxRecords counter : UInt32} (h : counter.toNat < maxRecords.toNat) :
    (advance maxRecords counter).toNat = (counter.toNat + 1) % maxRecords.toNat := by
  have hadd := toNat_add_one h
  rw [advance, Backend.YCSBBenchmark.nextCounter]
  split
  · next hwrap =>
    rw [UInt32.le_iff_toNat_le, hadd] at hwrap
    have hlast : counter.toNat + 1 = maxRecords.toNat := Nat.le_antisymm h hwrap
    rw [hlast, Nat.mod_self]
    rfl
  · next hnowrap =>
    rw [UInt32.not_le, UInt32.lt_iff_toNat_lt, hadd] at hnowrap
    rw [hadd, Nat.mod_eq_of_lt hnowrap]

/-- A number below `2 ^ 32` as the `int` of the same bits. -/
def intKey (k : Nat) : Int := toInt (UInt32.ofNat k)

theorem intKey_toNat (u : UInt32) : intKey u.toNat = toInt u := by
  rw [intKey, UInt32.ofNat_toNat]

/-- The number itself, unless it has the sign bit. -/
theorem intKey_eq {k : Nat} (h : k < 2 ^ 31) : intKey k = k := by
  have hnat : (UInt32.ofNat k).toBitVec.toNat = k :=
    UInt32.toNat_ofNat_of_lt' (Nat.lt_trans h (by decide))
  have hint := BitVec.toInt_eq_toNat_of_lt (x := (UInt32.ofNat k).toBitVec) (by omega)
  rwa [hnat] at hint

theorem intKey_inj {j k : Nat} (hj : j < 2 ^ 32) (hk : k < 2 ^ 32) (h : intKey j = intKey k) :
    j = k := by
  have hbits : (UInt32.ofNat j).toBitVec = (UInt32.ofNat k).toBitVec := BitVec.toInt_inj.mp h
  have hnat := congrArg BitVec.toNat hbits
  rwa [UInt32.toNat_toBitVec, UInt32.toNat_toBitVec, UInt32.toNat_ofNat_of_lt' hj,
    UInt32.toNat_ofNat_of_lt' hk] at hnat

/-- Reads of keys. -/
def reads (key : Nat → Int) (ks : List Nat) : List (Query Values) := ks.map fun k => .read (key k)

theorem reads_append (key : Nat → Int) (ks ks' : List Nat) :
    reads key (ks ++ ks') = reads key ks ++ reads key ks' := List.map_append

/-- The queries are those expected, or they end at a read that fails. -/
inductive Follows (env : Surroundings) (asked expected : List (Query Values)) :
    List (Query Values) × Ending → Prop
  | finished : Follows env asked expected (expected, .finished)
  | thrown {queries : List (Query Values)} (hne : queries ≠ []) (hpre : queries <+: expected)
      (hfails : readSucceeds (env.answer (asked ++ queries)) = false) :
      Follows env asked expected (queries, .thrown)

section

variable {env : Surroundings} {asked expected expected' queries : List (Query Values)}
  {ending : Ending}

theorem Follows.eq_of_finished (h : Follows env asked expected (queries, .finished)) :
    queries = expected := by
  cases h
  rfl

/-- If no read fails, the queries come to their end. -/
theorem Follows.finishes {r : List (Query Values) × Ending} (h : Follows env asked expected r)
    (hreads : ∀ queries, readSucceeds (env.answer queries) = true) : r.2 = .finished := by
  cases h with
  | finished => rfl
  | thrown _ _ hfails => exact absurd (hreads _) (by rw [hfails]; decide)

theorem Follows.append (h : Follows env (asked ++ expected) expected' (queries, ending)) :
    Follows env asked (expected ++ expected') (expected ++ queries, ending) := by
  cases h with
  | finished => exact .finished
  | thrown hne hpre hfails =>
    refine .thrown (by simp [hne]) ((List.prefix_append_right_inj expected).mpr hpre) ?_
    rwa [← List.append_assoc]

theorem Follows.append_right (h : Follows env asked expected (queries, .thrown))
    (expected' : List (Query Values)) :
    Follows env asked (expected ++ expected') (queries, .thrown) := by
  cases h with
  | thrown hne hpre hfails => exact .thrown hne (hpre.trans (List.prefix_append ..)) hfails

/-! ## One benchmark -/

namespace YCSBBenchmark

/-- The counter behind the keys. -/
def counter (b : YCSBBenchmark) : UInt32 :=
  if b.whetherSequence then b.unifiedSequentialCounter else b.sequentialCounter

/-- A benchmark that only reads, with its counter at a position and so many queries left. -/
structure Reading (N pos left : Nat) (b : YCSBBenchmark) : Prop where
  records : b.maxRecords.toNat = N
  proportion : b.queryProportion = 1
  counter : b.counter.toNat = pos
  below : pos < N
  bounded : b.maxQuery ≠ 0
  left : b.currentQuery.toNat + left = b.maxQuery.toNat

variable {N pos left : Nat} {b : YCSBBenchmark} {w : World}

theorem nextKey_fst (b : YCSBBenchmark) : b.nextKey.1 = b.counter := by
  unfold nextKey counter
  cases b.whetherSequence <;> rfl

/-- The key is taken from the counter, the rest of the benchmark is what it was. -/
theorem nextKey_snd (b : YCSBBenchmark) :
    b.nextKey.2.counter = advance b.maxRecords b.counter ∧
      b.nextKey.2.maxRecords = b.maxRecords ∧ b.nextKey.2.maxQuery = b.maxQuery ∧
      b.nextKey.2.queryProportion = b.queryProportion ∧
      b.nextKey.2.currentQuery = b.currentQuery := by
  unfold nextKey counter
  cases b.whetherSequence <;> simp

/-- A read that succeeds moves on around the circle. -/
theorem Reading.next (h : Reading N pos (left + 1) b) :
    Reading N ((pos + 1) % N) left
      { b.nextKey.2 with currentQuery := b.nextKey.2.currentQuery + 1 } := by
  obtain ⟨hcounter, hrecords, hquery, hproportion, hcurrent⟩ := b.nextKey_snd
  have hpos : 0 < N := Nat.lt_of_le_of_lt (Nat.zero_le pos) h.below
  constructor
  case records => exact hrecords ▸ h.records
  case proportion => exact hproportion ▸ h.proportion
  case counter =>
    change b.nextKey.2.counter.toNat = _
    rw [hcounter, toNat_advance (by rw [h.counter, h.records]; exact h.below), h.counter, h.records]
  case below => exact Nat.mod_lt _ hpos
  case bounded => exact hquery ▸ h.bounded
  case left =>
    have hleft := h.left
    have hadd : (b.currentQuery + 1).toNat = b.currentQuery.toNat + 1 :=
      toNat_add_one (show b.currentQuery.toNat < b.maxQuery.toNat by omega)
    simp only [hquery, hcurrent, hadd]
    omega

theorem Reading.isEnd (h : Reading N pos left b) : b.isEnd = decide (left = 0) := by
  have hleft := h.left
  rw [YCSBBenchmark.isEnd, if_neg h.bounded]
  apply decide_eq_decide.mpr
  rw [ge_iff_le, UInt32.le_iff_toNat_le]
  omega

theorem Reading.step (h : Reading N pos left b) :
    b.step env w = (.read (intKey pos), w.ask (.read (intKey pos)),
      if readSucceeds (env.answer (w.asked ++ [.read (intKey pos)])) then
        some { b.nextKey.2 with currentQuery := b.nextKey.2.currentQuery + 1 } else none) := by
  have hdraw : ((env.rng w.asked % 100).toNat : Rat) < b.queryProportion * 100 := by
    have hlt : (env.rng w.asked % 100).toNat < 100 := by
      rw [UInt32.toNat_mod]
      exact Nat.mod_lt _ (by decide)
    rw [h.proportion, one_mul]
    exact_mod_cast hlt
  have hkey : toInt b.nextKey.1 = intKey pos := by
    rw [nextKey_fst, ← intKey_toNat, h.counter]
  rw [YCSBBenchmark.step, if_pos hdraw, ← hkey]
  rfl

/-- A benchmark reads around the circle. -/
theorem Reading.run (env : Surroundings) (w : World) {fuel : Nat} (h : Reading N pos left b)
    (hfuel : left < fuel) :
    Follows env w.asked (reads intKey (cycle N pos left))
      ((b.run env fuel w).1, (b.run env fuel w).2.1) := by
  induction fuel generalizing b w pos left with
  | zero => exact absurd hfuel (Nat.not_lt_zero left)
  | succ fuel ih =>
    rw [YCSBBenchmark.run, h.isEnd]
    cases left with
    | zero => exact .finished
    | succ left =>
      have hcycle : reads intKey (cycle N pos (left + 1)) =
          [.read (intKey pos)] ++ reads intKey (cycle N ((pos + 1) % N) left) := by
        rw [Nat.add_comm, cycle_add, cycle_one h.below, reads_append]
        rfl
      rw [h.step, hcycle]
      by_cases hread : readSucceeds (env.answer (w.asked ++ [.read (intKey pos)])) = true
      · simp only [hread, if_true]
        have hrest := ih (w.ask (.read (intKey pos))) h.next (Nat.lt_of_succ_lt_succ hfuel)
        exact hrest.append
      · simp only [hread]
        exact .thrown (List.cons_ne_nil _ _) (List.prefix_append ..) (Bool.not_eq_true _ ▸ hread)

theorem asked_step (env : Surroundings) (b : YCSBBenchmark) (w : World) :
    (b.step env w).2.1.asked = w.asked ++ [(b.step env w).1] := by
  unfold YCSBBenchmark.step
  split <;> rfl

/-- The world knows all queries. -/
theorem asked_run (env : Surroundings) (fuel : Nat) (b : YCSBBenchmark) (w : World) :
    (b.run env fuel w).2.2.asked = w.asked ++ (b.run env fuel w).1 := by
  induction fuel generalizing b w with
  | zero => exact (List.append_nil _).symm
  | succ fuel ih =>
    have hstep := asked_step env b w
    rw [YCSBBenchmark.run]
    split
    · exact (List.append_nil _).symm
    · split
      · next query w' h =>
        rwa [h] at hstep
      · next query w' b' h =>
        rw [h] at hstep
        change (b'.run env fuel w').2.2.asked = w.asked ++ (query :: (b'.run env fuel w').1)
        rw [ih, hstep, List.append_assoc]
        rfl

end YCSBBenchmark

/-! ## The program -/

/-- A new benchmark of a program that only reads. -/
theorem YCSBBenchmark.reading_new {N : UInt32} (q : UInt32) {startidx queries : UInt32}
    {whetherSequence : Bool} {pos : Nat} (hpos : pos < N.toNat)
    (hstart : (if whetherSequence then 0 else startidx).toNat = pos) (hqueries : queries ≠ 0) :
    Reading N.toNat pos queries.toNat (new ⟨N, 1, q⟩ startidx whetherSequence queries) where
  records := rfl
  proportion := rfl
  counter := by cases whetherSequence <;> exact hstart
  below := hpos
  bounded := hqueries
  left := Nat.zero_add _

/-- `main` behind the first iteration, about to read from a position on. -/
structure Main.At (N : UInt32) (pos : Nat) (s : Main) : Prop where
  iterate : s.iterate = false
  startidx : s.sequentialStartidx.toNat = pos
  below : pos < N.toNat

/-- What an iteration does: where it leaves `main`, and what it has asked. -/
structure Iterated (env : Surroundings) (N : UInt32) (pos len : Nat) (s : Main)
    (r : List (Query Values) × Ending × Main) : Prop where
  follows : Follows env s.world.asked (reads intKey (cycle N.toNat pos len)) (r.1, r.2.1)
  asked : r.2.2.world.asked = s.world.asked ++ r.1
  next : Main.At N ((pos + len) % N.toNat) r.2.2

section

variable {N q : UInt32} {fuel : Nat} {s : Main} {pos : Nat}

theorem at_next (hpos : 0 < N.toNat) (startidx queries : UInt32)
    (hsum : startidx.toNat + queries.toNat < 2 ^ 32) (world : World) :
    Main.At N ((startidx.toNat + queries.toNat) % N.toNat)
      ⟨(startidx + queries) % N, false, world⟩ where
  iterate := rfl
  startidx := by rw [UInt32.toNat_mod, UInt32.toNat_add, Nat.mod_eq_of_lt hsum]
  below := Nat.mod_lt _ hpos

/-- The first iteration reads every key and starts the others at the first one. -/
theorem iterated_first (hN : N ≠ 0) (hfuel : N.toNat < fuel) (hiterate : s.iterate = true)
    (hstart : s.sequentialStartidx = 0) :
    Iterated env N 0 N.toNat s (s.iteration env ⟨N, 1, q⟩ fuel .warmup) := by
  let world : World := { s.world with nextInsertKey := N.toInt32 }
  let benchmark := YCSBBenchmark.new ⟨N, 1, q⟩ s.sequentialStartidx true N
  have hpos : 0 < N.toNat := Nat.pos_of_ne_zero fun h => hN (UInt32.toNat_inj.mp h)
  have hreading : benchmark.Reading N.toNat 0 N.toNat :=
    YCSBBenchmark.reading_new q hpos rfl hN
  have heq : s.iteration env ⟨N, 1, q⟩ fuel .warmup =
      ((benchmark.run env fuel world).1, (benchmark.run env fuel world).2.1,
        ⟨(s.sequentialStartidx + N) % N, false, (benchmark.run env fuel world).2.2⟩) := by
    simp only [Main.iteration, hiterate]
    rfl
  rw [heq]
  refine ⟨hreading.run env world hfuel, YCSBBenchmark.asked_run env fuel benchmark world, ?_⟩
  rw [hstart]
  exact at_next hpos 0 N (by rw [UInt32.toNat_zero, Nat.zero_add]; exact N.toNat_lt) _

/-- Any other reads on from where the one before has ended. -/
theorem Main.At.iteration (h : s.At N pos) (hq : q ≠ 0) (hsum : N.toNat + q.toNat < 2 ^ 32)
    (hfuel : q.toNat < fuel) (phase : Phase) :
    Iterated env N pos q.toNat s (s.iteration env ⟨N, 1, q⟩ fuel phase) := by
  obtain ⟨hiterate, hstart, hbelow⟩ := h
  let world : World := { s.world with nextInsertKey := N.toInt32 }
  let benchmark := YCSBBenchmark.new ⟨N, 1, q⟩ s.sequentialStartidx false q
  have hreading : benchmark.Reading N.toNat pos q.toNat :=
    YCSBBenchmark.reading_new q hbelow hstart hq
  have heq : s.iteration env ⟨N, 1, q⟩ fuel phase =
      ((benchmark.run env fuel world).1, (benchmark.run env fuel world).2.1,
        ⟨(s.sequentialStartidx + q) % N, false, (benchmark.run env fuel world).2.2⟩) := by
    unfold Main.iteration
    cases phase <;> simp only [hiterate] <;> rfl
  rw [heq]
  refine ⟨hreading.run env world hfuel, YCSBBenchmark.asked_run env fuel benchmark world, ?_⟩
  rw [← hstart]
  exact at_next (Nat.zero_lt_of_lt hbelow) s.sequentialStartidx q (by omega) _

/-- The iterations ask what is expected, each its share of it. -/
structure Rounds (env : Surroundings) (asked expected : List (Query Values)) (lens : List Nat)
    (r : List (List (Query Values)) × Ending) : Prop where
  follows : Follows env asked expected (r.1.flatten, r.2)
  lengths : r.2 = .finished → r.1.map List.length = lens

/-- An iteration and then the others, unless it throws. -/
theorem Iterated.rounds {cfg : Settings} {phase : Phase} {phases : List Phase} {len : Nat}
    {expected : List (Query Values)} {lens : List Nat}
    (hi : Iterated env N pos len s (s.iteration env cfg fuel phase))
    (hlater : ∀ t : Main, t.At N ((pos + len) % N.toNat) →
      Rounds env t.world.asked expected lens (Main.iterations env cfg fuel phases t)) :
    Rounds env s.world.asked (reads intKey (cycle N.toNat pos len) ++ expected) (len :: lens)
      (Main.iterations env cfg fuel (phase :: phases) s) := by
  obtain ⟨hfollows, hasked, hnext⟩ := hi
  rw [Main.iterations]
  generalize s.iteration env cfg fuel phase = r at hfollows hasked hnext
  obtain ⟨queries, ending, t⟩ := r
  cases hfollows with
  | finished =>
    obtain ⟨hrest, hlengths⟩ := hlater t hnext
    rw [hasked] at hrest
    refine ⟨hrest.append, fun hfinished => ?_⟩
    have hlen : (reads intKey (cycle N.toNat pos len)).length = len := by
      rw [reads, List.length_map, cycle, List.length_map, List.length_range]
    exact congrArg₂ List.cons hlen (hlengths hfinished)
  | thrown hne hpre hfails =>
    refine ⟨?_, nofun⟩
    have hthrown := Follows.thrown hne hpre hfails
    change Follows env s.world.asked _ ([queries].flatten, .thrown)
    rw [List.flatten_singleton]
    exact hthrown.append_right expected

/-- Iterations behind the first go round the keys without a gap. -/
theorem Main.At.iterations (h : s.At N pos) (hq : q ≠ 0) (hsum : N.toNat + q.toNat < 2 ^ 32)
    (hfuel : q.toNat < fuel) (phases : List Phase) :
    Rounds env s.world.asked (reads intKey (cycle N.toNat pos (phases.length * q.toNat)))
      (List.replicate phases.length q.toNat)
      (Main.iterations env ⟨N, 1, q⟩ fuel phases s) := by
  induction phases generalizing s pos with
  | nil =>
    rw [List.length_nil, Nat.zero_mul]
    exact ⟨.finished, fun _ => rfl⟩
  | cons phase phases ih =>
    rw [List.length_cons, Nat.succ_mul, Nat.add_comm _ q.toNat, cycle_add, reads_append]
    exact (h.iteration hq hsum hfuel phase).rounds fun t ht => ih ht

end

/-- Every key once in order, then round and round: what `main` asks in so many iterations
behind the first. Only a read that fails ends it earlier. -/
structure Cyclic (env : Surroundings) (key : Nat → Int) (N q iterations : Nat)
    (r : List (List (Query Values)) × Ending) : Prop where
  once : ∀ j k, j < N → k < N → key j = key k → j = k
  follows : Follows env []
    (reads key (List.range N) ++ reads key ((List.range (iterations * q)).map (· % N)))
    (r.1.flatten, r.2)
  passes : r.2 = .finished → ∃ first later, r.1 = first :: later ∧
    first = reads key (List.range N) ∧ later.map List.length = List.replicate iterations q ∧
    later.flatten = reads key ((List.range (iterations * q)).map (· % N))

theorem cycle_zero (n len : Nat) : cycle n 0 len = (List.range len).map (· % n) := by
  simp only [cycle, Nat.zero_add]

theorem cycle_self (n : Nat) : cycle n 0 n = List.range n := by
  rw [cycle_zero, List.map_congr_left fun k hk => Nat.mod_eq_of_lt (List.mem_range.mp hk)]
  exact List.map_id' _

theorem Rounds.cyclic {N : UInt32} {q iterations : Nat} {r : List (List (Query Values)) × Ending}
    (h : Rounds env [] (reads intKey (cycle N.toNat 0 N.toNat) ++
      reads intKey (cycle N.toNat 0 (iterations * q))) (N.toNat :: List.replicate iterations q) r) :
    Cyclic env intKey N.toNat q iterations r := by
  obtain ⟨hfollows, hlengths⟩ := h
  rw [cycle_self, cycle_zero] at hfollows
  refine ⟨fun j k hj hk => intKey_inj (hj.trans N.toNat_lt) (hk.trans N.toNat_lt), hfollows, ?_⟩
  intro hfinished
  obtain ⟨first, later, hr, hfirst, hlater⟩ := List.map_eq_cons_iff.mp (hlengths hfinished)
  rw [hfinished] at hfollows
  have hasked := hfollows.eq_of_finished
  rw [hr, List.flatten_cons] at hasked
  have hlen : first.length = (reads intKey (List.range N.toNat)).length := by
    rw [hfirst, reads, List.length_map, List.length_range]
  obtain ⟨hhead, htail⟩ := List.append_inj hasked hlen
  exact ⟨first, later, hr, hhead, hlater, htail⟩

/-- Only the keys of the records matter. -/
theorem Cyclic.congr {key key' : Nat → Int} {N q iterations : Nat}
    {r : List (List (Query Values)) × Ending} (h : Cyclic env key N q iterations r)
    (hN : 0 < N) (hkey : ∀ k, k < N → key' k = key k) : Cyclic env key' N q iterations r := by
  have hrange : reads key' (List.range N) = reads key (List.range N) :=
    List.map_congr_left fun k hk => congrArg Query.read (hkey k (List.mem_range.mp hk))
  have hcycle : reads key' ((List.range (iterations * q)).map (· % N)) =
      reads key ((List.range (iterations * q)).map (· % N)) := by
    refine List.map_congr_left fun k hk => congrArg Query.read (hkey k ?_)
    obtain ⟨i, _, rfl⟩ := List.mem_map.mp hk
    exact Nat.mod_lt i hN
  obtain ⟨honce, hfollows, hpasses⟩ := h
  refine ⟨fun j k hj hk heq => ?_, ?_, ?_⟩
  · rw [hkey j hj, hkey k hk] at heq
    exact honce j k hj hk heq
  · rwa [hrange, hcycle]
  · rwa [hrange, hcycle]

/-- The keys are read around the circle as `int`s. -/
theorem cyclic_main (env : Surroundings) (N q : UInt32) (hN : N ≠ 0) (hq : q ≠ 0)
    (hsum : N.toNat + q.toNat < 2 ^ 32) {warmups : Nat} (hwarmups : 1 ≤ warmups) (runs : Nat)
    {fuel : Nat} (hfuel : N.toNat < fuel) (hfuel' : q.toNat < fuel) :
    Cyclic env intKey N.toNat q.toNat (warmups - 1 + runs)
      (main env ⟨N, 1, q⟩ fuel warmups runs) := by
  obtain ⟨warmups, rfl⟩ := Nat.exists_eq_succ_of_ne_zero (Nat.one_le_iff_ne_zero.mp hwarmups)
  let phases : List Phase := List.replicate warmups .warmup ++ List.replicate runs .run
  have hlen : phases.length = warmups + runs := by
    rw [List.length_append, List.length_replicate, List.length_replicate]
  let start : Main := ⟨0, true, ⟨0, []⟩⟩
  have hfirst : Iterated env N 0 N.toNat start (start.iteration env ⟨N, 1, q⟩ fuel .warmup) :=
    iterated_first hN hfuel rfl rfl
  have hlater : ∀ t : Main, t.At N ((0 + N.toNat) % N.toNat) →
      Rounds env t.world.asked (reads intKey (cycle N.toNat 0 (phases.length * q.toNat)))
        (List.replicate phases.length q.toNat)
        (Main.iterations env ⟨N, 1, q⟩ fuel phases t) := by
    intro t ht
    rw [Nat.zero_add, Nat.mod_self] at ht
    exact ht.iterations hq hsum hfuel' phases
  have hcyclic := (hfirst.rounds hlater).cyclic
  rw [hlen] at hcyclic
  have hmain : main env ⟨N, 1, q⟩ fuel (warmups + 1) runs =
      Main.iterations env ⟨N, 1, q⟩ fuel (.warmup :: phases) start := rfl
  rw [Nat.succ_eq_add_one, Nat.add_sub_cancel, hmain]
  exact hcyclic

/-- The keys are read around the circle as `int`s, which are the numbers themselves for up to
`2 ^ 31` records. -/
theorem main_cyclic (env : Surroundings) (N q : UInt32) (hN : N ≠ 0) (hq : q ≠ 0)
    (hsum : N.toNat + q.toNat < 2 ^ 32) (warmups runs : Nat) (hwarmups : 1 ≤ warmups)
    (fuel : Nat) (hfuel : N.toNat < fuel) (hfuel' : q.toNat < fuel) :
    Cyclic env intKey N.toNat q.toNat (warmups - 1 + runs)
        (main env ⟨N, 1, q⟩ fuel warmups runs) ∧
      (N.toNat ≤ 2 ^ 31 → Cyclic env Nat.cast N.toNat q.toNat (warmups - 1 + runs)
        (main env ⟨N, 1, q⟩ fuel warmups runs)) := by
  have hpos : 0 < N.toNat := Nat.pos_of_ne_zero fun h => hN (UInt32.toNat_inj.mp h)
  have hcyclic := cyclic_main env N q hN hq hsum hwarmups runs hfuel hfuel'
  refine ⟨hcyclic, fun hsmall => hcyclic.congr hpos fun k hk => ?_⟩
  exact (intKey_eq (hk.trans_le hsmall)).symm

end

/-- Every query succeeds. -/
def obliging : Surroundings := ⟨fun _ => 0, fun _ => [], fun _ => .ok (true, [[]])⟩

/-- Three records, two warm-up iterations and a measured run of two queries each. -/
theorem main_cyclic_three :
    Cyclic obliging intKey 3 2 2 (main obliging ⟨3, 1, 2⟩ 4 2 1) ∧
      (3 ≤ 2 ^ 31 → Cyclic obliging Nat.cast 3 2 2 (main obliging ⟨3, 1, 2⟩ 4 2 1)) :=
  main_cyclic obliging 3 2 (by decide) (by decide) (by decide) 2 1 (by decide) 4 (by decide)
    (by decide)

/-- What is read under one account of the keys is not what is read under another. -/
theorem Cyclic.key_eq {key key' : Nat → Int} {N q iterations : Nat}
    {r : List (List (Query Values)) × Ending} (h : Cyclic obliging key N q iterations r)
    (h' : Cyclic obliging key' N q iterations r) {k : Nat} (hk : k < N) : key k = key' k := by
  have hfinished : r.2 = .finished := h.follows.finishes fun _ => rfl
  obtain ⟨first, later, hr, hfirst, _⟩ := h.passes hfinished
  obtain ⟨first', later', hr', hfirst', _⟩ := h'.passes hfinished
  have heq : reads key (List.range N) = reads key' (List.range N) := by
    rw [← hfirst, ← hfirst', (List.cons.inj (hr.symm.trans hr')).1]
  exact Query.read.inj (List.map_inj_left.mp heq k (List.mem_range.mpr hk))

/-- With more than `2 ^ 31` records, the last key is negative. -/
theorem not_cyclic_large :
    ¬Cyclic obliging Nat.cast 2147483649 1 0 (main obliging ⟨2147483649, 1, 1⟩ 2147483650 1 0) := by
  intro h
  have hint : Cyclic obliging intKey 2147483649 1 0
      (main obliging ⟨2147483649, 1, 1⟩ 2147483650 1 0) :=
    cyclic_main obliging 2147483649 1 (by decide) (by decide) (by decide) le_rfl 0 (by decide)
      (by decide)
  have hkey := h.key_eq hint (k := 2147483648) (by decide)
  exact absurd hkey (by decide)

end CachelibArchive.Backend.Scan
