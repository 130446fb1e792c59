import CachelibArchive.Control.Conversation
import CachelibArchive.Control.Request
import CachelibArchive.Control.Status

/-!
# A round of the scheduler

The scheduler sends sizes with `set_cache_size` and reads the pools back with `get_pool_stats`.
Every pool then has the units that were asked for exactly if the pools fit into the memory with
those sizes, where a pool that already has its units counts with all its bytes.
-/

namespace CachelibArchive.Control

open Text

namespace PoolTable

/-- Units the pools are to have. -/
def requested (t : PoolTable) (entries : List (Name × Nat)) (name : Name) : Option Int :=
  match entries.lookup name with
  | some n => some (n : Int)
  | none => t.units name

/-- Size of a pool behind both loops: one that already has its units is left as it is. -/
def kept (entries : List (Name × Nat)) (p : Name × Nat) : Nat :=
  match entries.lookup p.1 with
  | some n => if p.2 / SIZE_CONV = n then p.2 else n * SIZE_CONV
  | none => p.2

/-! ## With the memory for it -/

/-- The first loop leaves no pool above the size it is to have, and the second takes it there. -/
theorem settle_kept (entries : List (Name × Nat)) (p : Name × Nat) :
    settle (fun currSize poolSize => decide (currSize < poolSize)) entries
        (p.1, settle (fun currSize poolSize => decide (currSize > poolSize)) entries p) =
      kept entries p ∧
    settle (fun currSize poolSize => decide (currSize > poolSize)) entries p ≤ kept entries p := by
  unfold settle kept
  cases entries.lookup p.1 with
  | none => exact ⟨rfl, Nat.le_refl _⟩
  | some n =>
    simp only [decide_eq_true_eq]
    unfold SIZE_CONV
    constructor <;> split_ifs <;> omega

/-- Shrinking and then growing gives every pool what it is to have. -/
theorem executeNewConfig_of_kept {t : PoolTable} {config : List UInt8}
    (hdistinct : ((parseConfig config).map Prod.fst).Nodup)
    (hreg : ∀ e ∈ parseConfig config, (t.size e.1).isSome = true)
    (hroom : (t.pools.map (kept (parseConfig config))).sum ≤ t.capacity) :
    ∃ t' done, t.executeNewConfig config = .ok (t', done) ∧
      Resized t t' (t.pools.map fun p => (p.1, kept (parseConfig config) p)) := by
  generalize hentries : parseConfig config = entries at *
  have hshrink : (t.pools.map fun p => max p.2
      (settle (fun currSize poolSize => decide (currSize > poolSize)) entries p)).sum ≤
        t.capacity := by
    rw [List.map_congr_left fun p _ => Nat.max_eq_left (settle_shrink_le entries p)]
    exact t.fits
  obtain ⟨t₁, done₁, hok₁, hres₁, -⟩ := resizeLoop_of_room
    (fun currSize poolSize => decide (currSize > poolSize)) hdistinct hreg hshrink
  have hreg₁ : ∀ e ∈ entries, (t₁.size e.1).isSome = true := by
    intro e he
    have hsome := hreg e he
    rw [size, hres₁.pools, lookup_map]
    simpa [size] using hsome
  have hgrow : (t₁.pools.map fun p => max p.2
      (settle (fun currSize poolSize => decide (currSize < poolSize)) entries p)).sum ≤
        t₁.capacity := by
    rw [hres₁.capacity, hres₁.pools, List.map_map]
    refine Nat.le_trans (List.sum_le_sum fun p _ => ?_) hroom
    obtain ⟨heq, hle⟩ := settle_kept entries p
    simp only [Function.comp_apply, heq]
    exact Nat.max_le.mpr ⟨hle, Nat.le_refl _⟩
  obtain ⟨t₂, done₂, hok₂, hres₂, -⟩ := resizeLoop_of_room
    (fun currSize poolSize => decide (currSize < poolSize)) hdistinct hreg₁ hgrow
  refine ⟨t₂, done₁ ++ done₂, ?_, hres₂.capacity.trans hres₁.capacity,
    hres₂.poolSize.trans hres₁.poolSize, ?_⟩
  · simp only [executeNewConfig, hentries, shrinkLoop, hok₁, growLoop, hok₂, Except.map]
  · rw [hres₂.pools, hres₁.pools, List.map_map]
    exact List.map_congr_left fun p _ => by simp [(settle_kept entries p).1]

/-- A pool that has what it is to have has its units. -/
theorem kept_div (entries : List (Name × Nat)) (p : Name × Nat) :
    kept entries p / SIZE_CONV = (entries.lookup p.1).getD (p.2 / SIZE_CONV) := by
  unfold kept
  cases entries.lookup p.1 with
  | none => rfl
  | some n =>
    simp only [Option.getD_some]
    split_ifs with h
    · exact h
    · exact Nat.mul_div_cancel n (by decide)

theorem units_of_kept {t t' : PoolTable} {entries : List (Name × Nat)}
    (hreg : ∀ e ∈ entries, (t.size e.1).isSome = true)
    (h : Resized t t' (t.pools.map fun p => (p.1, kept entries p))) :
    t'.units = t.requested entries := by
  ext name : 1
  have hsize : t'.size name = (t.size name).map fun s => kept entries (name, s) := by
    rw [size, h.pools, lookup_map]
    rfl
  cases hs : t.size name with
  | none =>
    have hlookup : entries.lookup name = none := by
      rw [lookup_eq_none_iff]
      intro hmem
      obtain ⟨e, he, rfl⟩ := List.mem_map.mp hmem
      have hsome := hreg e he
      rw [hs] at hsome
      cases hsome
    simp [units, requested, hsize, hs, hlookup]
  | some s =>
    simp only [units, requested, hsize, hs, Option.map_some, kept_div]
    cases entries.lookup name <;> rfl

/-! ## Whatever memory there is -/

/-- What a loop may make of a size. -/
def Moved (due : Nat → Nat → Bool) (entries : List (Name × Nat)) (name : Name) (s s' : Nat) :
    Prop :=
  s' = s ∨ ∃ n, (name, n) ∈ entries ∧ due (s / SIZE_CONV) n = true ∧ s' = n * SIZE_CONV % 2 ^ 64

theorem resizePool_moved {t t' : PoolTable} {name : Name} {s new : Nat} {done : Option Bool}
    (hs : t.size name = some s) (h : t.resizePool name new = .ok (t', done)) :
    t'.size name = some s ∨ t'.size name = some new := by
  by_cases hroom : new - s ≤ t.unreserved
  · obtain ⟨t₁, done₁, hok, hresized, -⟩ := resizePool_of_room hs hroom
    cases hok.symm.trans h
    right
    rw [size, hresized.pools, sized, lookup_map]
    simp [show t.pools.lookup name = some s from hs]
  · obtain ⟨pid, hid, hget⟩ := getPoolId_of_size hs
    have hgrow : new > s := by omega
    simp only [resizePool, hid, getPoolStats, Option.bind_some, hget, if_pos hgrow, growPool,
      dif_neg hroom] at h
    cases h
    exact .inl hs

/-- Whatever memory there is, a loop moves a pool to the size listed for it or not at all. -/
theorem resizeLoop_moved {due : Nat → Nat → Bool} {entries : List (Name × Nat)} {t t' : PoolTable}
    {done : List (Option Bool)} (hdistinct : (entries.map Prod.fst).Nodup)
    (h : resizeLoop due t entries = .ok (t', done)) {name : Name} {s : Nat}
    (hs : t.size name = some s) : ∃ s', t'.size name = some s' ∧ Moved due entries name s s' := by
  induction entries generalizing t done s with
  | nil =>
    cases h
    exact ⟨s, hs, .inl rfl⟩
  | cons e rest ih =>
    obtain ⟨poolName, poolSize⟩ := e
    rw [List.map_cons, List.nodup_cons] at hdistinct
    have hreg := registered_of_resizeLoop h (poolName, poolSize) List.mem_cons_self
    obtain ⟨u, hu⟩ := Option.isSome_iff_exists.mp hreg
    have hweaken : ∀ {v v'}, Moved due rest name v v' →
        Moved due ((poolName, poolSize) :: rest) name v v' := by
      rintro v v' (heq | ⟨n, hn, hdue, heq⟩)
      · exact .inl heq
      · exact .inr ⟨n, List.mem_cons_of_mem _ hn, hdue, heq⟩
    simp only [resizeLoop, getPoolSizeFromName_of_size hu] at h
    split_ifs at h with hdue
    · obtain ⟨t₁, done₁, hok, hkeep, -⟩ := resizePool_keep (poolSize * SIZE_CONV % 2 ^ 64) hu
      rw [hok] at h
      cases hrest : resizeLoop due t₁ rest with
      | error f =>
        simp only [hrest] at h
        cases h
      | ok r =>
        simp only [hrest] at h
        cases h
        by_cases hname : name = poolName
        · subst hname
          obtain rfl := Option.some.inj (hu.symm.trans hs)
          -- the rest does not list the pool again
          have hlast : ∀ {v v'}, Moved due rest name v v' → v' = v := by
            rintro v v' (heq | ⟨n, hn, -⟩)
            · exact heq
            · exact absurd (List.mem_map.mpr ⟨_, hn, rfl⟩) hdistinct.1
          obtain hsame | hnew := resizePool_moved hu hok
          · obtain ⟨s', hs', hmoved⟩ := ih hdistinct.2 hrest hsame
            exact ⟨s', hs', .inl (hlast hmoved)⟩
          · obtain ⟨s', hs', hmoved⟩ := ih hdistinct.2 hrest hnew
            exact ⟨s', hs', .inr ⟨poolSize, List.mem_cons_self, hdue, hlast hmoved⟩⟩
        · obtain ⟨s', hs', hmoved⟩ := ih hdistinct.2 hrest ((hkeep name hname).trans hs)
          exact ⟨s', hs', hweaken hmoved⟩
    · obtain ⟨s', hs', hmoved⟩ := ih hdistinct.2 h hs
      exact ⟨s', hs', hweaken hmoved⟩

/-- A pool that both loops have given its units has exactly the size it is to have. -/
theorem eq_kept_of_units {entries : List (Name × Nat)} {name : Name} {s s₁ s₂ : Nat}
    (hdistinct : (entries.map Prod.fst).Nodup) (hbound : s < 2 ^ 64)
    (h₁ : Moved (fun currSize poolSize => decide (currSize > poolSize)) entries name s s₁)
    (h₂ : Moved (fun currSize poolSize => decide (currSize < poolSize)) entries name s₁ s₂)
    (hunits : ∀ n, entries.lookup name = some n → s₂ / SIZE_CONV = n) :
    s₂ = kept entries (name, s) := by
  have hlisted : ∀ {n}, (name, n) ∈ entries → entries.lookup name = some n :=
    fun hn => lookup_of_mem hdistinct hn
  unfold kept
  cases hl : entries.lookup name with
  | none =>
    -- an unlisted pool is moved by neither loop
    obtain rfl | ⟨n, hn, -⟩ := h₁
    · obtain rfl | ⟨n, hn, -⟩ := h₂
      · rfl
      · cases hl.symm.trans (hlisted hn)
    · cases hl.symm.trans (hlisted hn)
  | some n =>
    have hn := hunits n hl
    have hunique : ∀ {m}, (name, m) ∈ entries → m = n := fun hm =>
      Option.some.inj ((hlisted hm).symm.trans hl)
    simp only
    obtain rfl | ⟨m, hm, hdue, rfl⟩ := h₁
    · obtain rfl | ⟨m, hm, hdue, rfl⟩ := h₂
      · rw [if_pos hn]
      · obtain rfl := hunique hm
        rw [decide_eq_true_eq] at hdue
        rw [if_neg (Nat.ne_of_lt hdue)]
        unfold SIZE_CONV at *
        omega
    · obtain rfl := hunique hm
      rw [decide_eq_true_eq] at hdue
      rw [if_neg (Nat.ne_of_gt hdue)]
      obtain rfl | ⟨m', hm', hdue', rfl⟩ := h₂
      · unfold SIZE_CONV at *
        omega
      · obtain rfl := hunique hm'
        rw [decide_eq_true_eq] at hdue'
        unfold SIZE_CONV at *
        omega

theorem map_snd_pools (t : PoolTable) :
    t.pools.map Prod.snd = t.names.map fun name => (t.size name).getD 0 := by
  rw [names, List.map_map]
  refine List.map_congr_left fun p hp => ?_
  simp [size, lookup_of_mem t.nodup hp]

/-- Every pool gets the units it is to have, and the others keep theirs, exactly if there is the
memory for it. -/
theorem executeNewConfig_units_iff {t : PoolTable} {config : List UInt8}
    (hdistinct : ((parseConfig config).map Prod.fst).Nodup)
    (hreg : ∀ e ∈ parseConfig config, (t.size e.1).isSome = true) :
    (∃ t' done, t.executeNewConfig config = .ok (t', done) ∧
      t'.units = t.requested (parseConfig config)) ↔
        (t.pools.map (kept (parseConfig config))).sum ≤ t.capacity := by
  constructor
  · rintro ⟨t', done, hok, hunits⟩
    have hnamed := named_executeNewConfig hok
    generalize hentries : parseConfig config = entries at *
    unfold executeNewConfig at hok
    rw [hentries] at hok
    cases hshrink : t.shrinkLoop entries with
    | error f =>
      simp only [hshrink] at hok
      cases hok
    | ok r₁ =>
      obtain ⟨t₁, done₁⟩ := r₁
      cases hgrow : t₁.growLoop entries with
      | error f =>
        simp only [hshrink, hgrow] at hok
        cases hok
      | ok r₂ =>
        simp only [hshrink, hgrow] at hok
        cases hok
        have hsize : ∀ p ∈ t.pools, r₂.1.size p.1 = some (kept entries p) := by
          intro p hp
          have hs : t.size p.1 = some p.2 := lookup_of_mem t.nodup hp
          obtain ⟨s₁, hs₁, hmoved₁⟩ := resizeLoop_moved hdistinct hshrink hs
          obtain ⟨s₂, hs₂, hmoved₂⟩ := resizeLoop_moved hdistinct hgrow hs₁
          have hbound : p.2 < 2 ^ 64 := Nat.lt_of_le_of_lt
            (Nat.le_trans (List.single_le_sum (fun _ _ => Nat.zero_le _) p.2
              (List.mem_map.mpr ⟨p, hp, rfl⟩)) t.fits) t.bounded
          rw [hs₂, eq_kept_of_units hdistinct hbound hmoved₁ hmoved₂]
          intro n hn
          have hname := congrFun hunits p.1
          simp only [units, requested, hs₂, hn, Option.map_some, Option.some.injEq] at hname
          exact Int.ofNat.inj hname
        have hsum : t.pools.map (kept entries) = r₂.1.pools.map Prod.snd := by
          rw [map_snd_pools, hnamed.names, names, List.map_map]
          refine List.map_congr_left fun p hp => ?_
          simp [hsize p hp]
        rw [hsum, ← hnamed.capacity]
        exact r₂.1.fits
  · intro hroom
    obtain ⟨t', done, hok, hresized⟩ := executeNewConfig_of_kept hdistinct hreg hroom
    exact ⟨t', done, hok, units_of_kept hreg hresized⟩

/-- The status of the pools can be read whatever their sizes: the names are plain, and there is
room for 13 digits behind each. -/
structure Compact (t : PoolTable) : Prop where
  plain : ∀ name ∈ t.names, Plain name
  short : (t.names.map fun name => name.length + 15).sum ≤ 1024

theorem Compact.of_named {t t' : PoolTable} (h : Compact t) (hnamed : Named t t' t.names) :
    Compact t' := by
  constructor
  · rw [hnamed.names]
    exact h.plain
  · rw [hnamed.names]
    exact h.short

theorem div_lt_of_mem {t : PoolTable} {p : Name × Nat} (hp : p ∈ t.pools) :
    p.2 / SIZE_CONV < 10 ^ 13 := by
  have hle : p.2 ≤ t.capacity := Nat.le_trans
    (List.single_le_sum (fun _ _ => Nat.zero_le _) p.2 (List.mem_map.mpr ⟨p, hp, rfl⟩)) t.fits
  have hbounded := t.bounded
  unfold SIZE_CONV
  omega

end PoolTable

/-! ## The round -/

theorem length_serialize_le {stats : List (Name × Nat)} (h : ∀ p ∈ stats, p.2 < 10 ^ 13) :
    (serialize stats).length ≤ (stats.map fun p => p.1.length + 15).sum := by
  induction stats with
  | nil => exact Nat.le_refl _
  | cons p stats ih =>
    have hdigits := length_decimal_le (by decide) (h p List.mem_cons_self)
    have hrest := ih fun q hq => h q (List.mem_cons_of_mem _ hq)
    rw [serialize_cons, entryText, List.map_cons, List.sum_cons]
    simp only [List.length_append, List.length_cons]
    omega

variable {int : List UInt8 → Option Int}

/-- The status of compact pools is read back. -/
theorem getPoolStats_of_compact (hint : ∀ n, int (decimal n) = some (n : Int)) {t : PoolTable}
    (h : t.Compact) : getPoolStats int (serialize (getCacheStats t)) = some t.units := by
  have hplain : ∀ p ∈ t.pools, Plain p.1 := fun p hp => h.plain p.1 (List.mem_map_of_mem hp)
  have hlen : (serialize (getCacheStats t)).length ≤ 1024 := by
    refine Nat.le_trans (length_serialize_le fun p hp => ?_) (Nat.le_trans (Nat.le_of_eq ?_) h.short)
    · obtain ⟨q, hq, rfl⟩ := List.mem_map.mp ((perm_getCacheStats t).mem_iff.mp hp)
      exact PoolTable.div_lt_of_mem hq
    · rw [((perm_getCacheStats t).map _).sum_eq, PoolTable.names, List.map_map, List.map_map]
      rfl
  have hutf8 : isUtf8 (serialize (getCacheStats t)) = true :=
    (isUtf8_serialize _).mpr
      ((forall_getCacheStats t (isUtf8 · = true)).mpr fun p hp => (hplain p hp).2.2)
  have hread := readEntries_serialize hint (getCacheStats t)
    ((forall_getCacheStats t fun name => 58 ∉ name ∧ 59 ∉ name).mpr
      fun p hp => ⟨(hplain p hp).1, (hplain p hp).2.1⟩)
  rw [getPoolStats]
  simp only [recv, List.take_of_length_le hlen, hutf8, if_true, hread, Option.map_some]
  congr 1
  ext name : 1
  exact lookup_entries t name

/-- A request for pools that are there, which the listener can read. -/
structure Readable (t : PoolTable) (workloads : List Name) (cacheSize : List Nat) : Prop where
  lengths : workloads.length = cacheSize.length
  words : ∀ w ∈ workloads, IsWord w
  sizes : ∀ n ∈ cacheSize, n < 2 ^ 64
  distinct : workloads.Nodup
  registered : ∀ w ∈ workloads, (t.size w).isSome = true
  fits : (setCacheSize workloads cacheSize).length < bufSize

namespace Readable

variable {t : PoolTable} {workloads : List Name} {cacheSize : List Nat}

/-- Exactly the pairs that are sent are read. -/
theorem text (h : Readable t workloads cacheSize) :
    ∃ getMessage, messageText (recv bufSize (setCacheSize workloads cacheSize)) = .ok getMessage ∧
      parseConfig getMessage = workloads.zip cacheSize := by
  have hnul : ∀ b ∈ setCacheSize workloads cacheSize, (decide (b ≠ 0)) = true := by
    intro b hb
    apply decide_eq_true
    rintro rfl
    exact not_mem_setCacheSize cacheSize h.words hb
  have htext : receivedText (setCacheSize workloads cacheSize) =
      setCacheSize workloads cacheSize := by
    rw [receivedText, recv, List.take_of_length_le (Nat.le_of_lt h.fits),
      List.takeWhile_eq_self_iff.mpr hnul]
  refine ⟨_, messageText_eq_ok.mpr ⟨.inl h.fits, ?_, rfl⟩, ?_⟩
  · rw [htext, setCacheSize, List.length_append]
    exact Nat.le_add_right ..
  · rw [htext]
    exact parseConfig_join h.lengths h.words h.sizes

theorem names_entries (h : Readable t workloads cacheSize) :
    (workloads.zip cacheSize).map Prod.fst = workloads :=
  List.map_fst_zip (Nat.le_of_eq h.lengths)

theorem registered_entries (h : Readable t workloads cacheSize) :
    ∀ e ∈ workloads.zip cacheSize, (t.size e.1).isSome = true := by
  intro e he
  apply h.registered
  rw [← h.names_entries]
  exact List.mem_map_of_mem he

end Readable

/-- `set_cache_size` and then `get_pool_stats`, with nobody else connecting. -/
def round (int : List UInt8 → Option Int) (r : Server) (workloads : List Name)
    (cacheSize : List Nat) : Option (Name → Option Int) :=
  (Run.exec Listening.step (Listening.start r)
    [.message (setCacheSize workloads cacheSize), .message [71, 58]]).bind fun l =>
      l.log.getLast?.bind fun c => getPoolStats int c.2

/-- In a round the status is that of the pools behind the configuration. -/
theorem round_eq {r : Server} {workloads : List Name} {cacheSize : List Nat}
    {getMessage : List UInt8} {pools : PoolTable} {done : List (Option Bool)}
    (htext : messageText (recv bufSize (setCacheSize workloads cacheSize)) = .ok getMessage)
    (hok : r.pools.executeNewConfig getMessage = .ok (pools, done)) :
    round int r workloads cacheSize = getPoolStats int (serialize (getCacheStats pools)) := by
  have hset : iteration r (setCacheSize workloads cacheSize) =
      .ok ⟨{ r with pools }, [], true, none⟩ := by
    simp only [iteration, head_filled, show command (setCacheSize workloads cacheSize) = 83 from rfl,
      htext, hok]
  have hget : iteration { r with pools } [71, 58] =
      .ok ⟨{ r with pools }, serialize (getCacheStats pools), true, none⟩ := by
    simp only [iteration, head_filled, show command [71, 58] = 71 from rfl]
  simp [round, Run.exec_cons, Listening.step, Listening.start, hset, hget]

/-- The scheduler reads back what it has asked for, and what the other pools had, if and only if
there is the memory for it. -/
theorem round_iff (hint : ∀ n, int (decimal n) = some (n : Int)) {r : Server}
    {workloads : List Name} {cacheSize : List Nat} (h : Readable r.pools workloads cacheSize)
    (hcompact : r.pools.Compact) :
    round int r workloads cacheSize = some (r.pools.requested (workloads.zip cacheSize)) ↔
      (r.pools.pools.map (PoolTable.kept (workloads.zip cacheSize))).sum ≤ r.pools.capacity := by
  obtain ⟨getMessage, htext, hparse⟩ := h.text
  have hdistinct : ((parseConfig getMessage).map Prod.fst).Nodup := by
    rw [hparse, h.names_entries]
    exact h.distinct
  have hreg : ∀ e ∈ parseConfig getMessage, (r.pools.size e.1).isSome = true := by
    rw [hparse]
    exact h.registered_entries
  have hiff := PoolTable.executeNewConfig_units_iff hdistinct hreg
  rw [hparse] at hiff
  rw [← hiff]
  obtain ⟨⟨pools, done⟩, hok⟩ := (r.pools.executeNewConfig_ok_iff getMessage).mpr hreg
  have hstatus := getPoolStats_of_compact hint
    (hcompact.of_named (PoolTable.named_executeNewConfig hok))
  rw [round_eq htext hok, hstatus, Option.some.injEq]
  constructor
  · intro hunits
    exact ⟨pools, done, hok, hunits⟩
  · rintro ⟨pools', done', hok', hunits⟩
    cases hok.symm.trans hok'
    exact hunits

/-- A server with the two pools of 31 MB. -/
def twoPoolsServer : Server := { Server.start with pools := PoolTable.twoPools }

/-- Two units and 62 units fill the memory; one unit and 63 units do not fit, because the pool of
31 MB already has its unit. -/
theorem round_iff_twoPools :
    round intOfNumeral twoPoolsServer [[97], [98]] [2, 62] =
        some (PoolTable.twoPools.requested [([97], 2), ([98], 62)]) ∧
      round intOfNumeral twoPoolsServer [[97], [98]] [1, 63] ≠
        some (PoolTable.twoPools.requested [([97], 1), ([98], 63)]) := by
  have hwords : ∀ w ∈ ([[97], [98]] : List Name), IsWord w := by simp [IsWord, isSpace]
  have hcompact : PoolTable.twoPools.Compact := ⟨by decide, by decide⟩
  constructor
  · apply (round_iff (r := twoPoolsServer) intOfNumeral_decimal
      ⟨rfl, hwords, by decide, by decide, by decide, by decide⟩ hcompact).mpr
    decide
  · intro hround
    have hroom := (round_iff (r := twoPoolsServer) intOfNumeral_decimal
      ⟨rfl, hwords, by decide, by decide, by decide, by decide⟩ hcompact).mp hround
    exact absurd hroom (by decide)

/-! ## Nothing to change -/

/-- Pools that already have their units are left as they are, whole units or not. -/
theorem PoolTable.kept_of_units {t : PoolTable} {entries : List (Name × Nat)}
    (hsame : ∀ e ∈ entries, t.units e.1 = some (e.2 : Int)) {p : Name × Nat} (hp : p ∈ t.pools) :
    kept entries p = p.2 := by
  unfold kept
  cases hl : entries.lookup p.1 with
  | none => rfl
  | some n =>
    have hs : t.size p.1 = some p.2 := lookup_of_mem t.nodup hp
    have hunits := hsame (p.1, n) (mem_of_lookup hl)
    simp only [units, hs, Option.map_some, Option.some.injEq] at hunits
    exact if_pos (Int.ofNat.inj hunits)

/-- Sending back sizes that were read changes no pool by a byte, nor anything else. -/
theorem resend_keeps (hint : ∀ n, int (decimal n) = some (n : Int)) {r : Server}
    {workloads : List Name} {cacheSize : List Nat} (h : Readable r.pools workloads cacheSize)
    (hcompact : r.pools.Compact)
    (hsame : ∀ e ∈ workloads.zip cacheSize, ∃ s status, iteration r [71, 58] = .ok s ∧
      getPoolStats int s.reply = some status ∧ status e.1 = some (e.2 : Int)) :
    iteration r (setCacheSize workloads cacheSize) = .ok ⟨r, [], true, none⟩ := by
  obtain ⟨getMessage, htext, hparse⟩ := h.text
  have hunits : ∀ e ∈ workloads.zip cacheSize, r.pools.units e.1 = some (e.2 : Int) := by
    intro e he
    obtain ⟨s, status, hs, hread, hsize⟩ := hsame e he
    have hget : iteration r [71, 58] = .ok ⟨r, serialize (getCacheStats r.pools), true, none⟩ := by
      simp only [iteration, head_filled, show command [71, 58] = 71 from rfl]
    cases hget.symm.trans hs
    cases (getPoolStats_of_compact hint hcompact).symm.trans hread
    exact hsize
  have hkept : ∀ p ∈ r.pools.pools, PoolTable.kept (parseConfig getMessage) p = p.2 := by
    rw [hparse]
    exact fun p hp => PoolTable.kept_of_units hunits hp
  obtain ⟨pools, done, hok, hresized⟩ := PoolTable.executeNewConfig_of_kept
    (by rw [hparse, h.names_entries]; exact h.distinct)
    (by rw [hparse]; exact h.registered_entries)
    (by rw [List.map_congr_left hkept]; exact r.pools.fits)
  have hpools : pools = r.pools := by
    apply PoolTable.ext hresized.capacity hresized.poolSize
    rw [hresized.pools, List.map_congr_left fun p hp => by rw [hkept p hp]]
    exact List.map_id r.pools.pools
  simp only [iteration, head_filled, show command (setCacheSize workloads cacheSize) = 83 from rfl,
    htext, hok, hpools]

/-- One unit for each of the two pools of 31 MB. -/
theorem resend_keeps_twoPools :
    iteration twoPoolsServer (setCacheSize [[97], [98]] [1, 1]) =
      .ok ⟨twoPoolsServer, [], true, none⟩ := by
  have hwords : ∀ w ∈ ([[97], [98]] : List Name), IsWord w := by simp [IsWord, isSpace]
  have hcompact : PoolTable.twoPools.Compact := ⟨by decide, by decide⟩
  apply resend_keeps (r := twoPoolsServer) intOfNumeral_decimal
    ⟨rfl, hwords, by decide, by decide, by decide, by decide⟩ hcompact
  intro e he
  refine ⟨_, _, rfl, getPoolStats_of_compact intOfNumeral_decimal hcompact, ?_⟩
  revert e
  decide

end CachelibArchive.Control
