import CachelibArchive.Control.Pools
import Mathlib.Algebra.Order.Group.Nat
import Mathlib.Data.List.Perm.Basic

/-!
# Applying a configuration

`executeNewConfig` shrinks what is to be smaller and then grows what is to be larger. It
looks at the sizes in whole units, so a pool that is not a whole number of units, and
already has the number it is to have, is left as it is; the others then get exactly what
was asked for.
-/

namespace CachelibArchive.Control

open Text

/-- The reading loop of `executeNewConfig`. -/
def readPairs (line size : List UInt8) : List (Name × Nat) :=
  match _h : readWord line with
  | none => []
  | some (token, line') =>
    match readSize size with
    | none => []
    | some (num, size') => (token, num) :: readPairs line' size'
termination_by line.length
decreasing_by exact length_of_readWord _h

/-- Names and sizes that a configuration lists. -/
def parseConfig (config : List UInt8) : List (Name × Nat) :=
  let (line, rest) := getline config
  let (size, _) := getline rest
  readPairs line size

namespace PoolTable

/-- One of the two loops over the pools, with what the resizings have returned. `due` compares
the size a pool has with the one it is to have, both in units. -/
def resizeLoop (due : Nat → Nat → Bool) (t : PoolTable) :
    List (Name × Nat) → Except Fault (PoolTable × List (Option Bool))
  | [] => .ok (t, [])
  | (poolName, poolSize) :: rest =>
    match t.getPoolSizeFromName poolName with
    | .error e => .error e
    | .ok currSize =>
      if due (currSize / SIZE_CONV) poolSize then
        match t.resizePool poolName (poolSize * SIZE_CONV % 2 ^ 64) with
        | .error e => .error e
        | .ok (t, done) => (resizeLoop due t rest).map fun r => (r.1, done :: r.2)
      else resizeLoop due t rest

/-- The first loop. -/
def shrinkLoop : PoolTable → List (Name × Nat) → Except Fault (PoolTable × List (Option Bool)) :=
  resizeLoop fun currSize poolSize => decide (currSize > poolSize)

/-- The second loop. -/
def growLoop : PoolTable → List (Name × Nat) → Except Fault (PoolTable × List (Option Bool)) :=
  resizeLoop fun currSize poolSize => decide (currSize < poolSize)

/-- `executeNewConfig` -/
def executeNewConfig (t : PoolTable) (config : List UInt8) :
    Except Fault (PoolTable × List (Option Bool)) :=
  let entries := parseConfig config
  match t.shrinkLoop entries with
  | .error e => .error e
  | .ok (t, done) => (t.growLoop entries).map fun r => (r.1, done ++ r.2)

/-! ## One loop -/

/-- Size of a pool after a loop. -/
def settle (due : Nat → Nat → Bool) (entries : List (Name × Nat)) (p : Name × Nat) : Nat :=
  match entries.lookup p.1 with
  | some n => if due (p.2 / SIZE_CONV) n then n * SIZE_CONV else p.2
  | none => p.2

variable {due : Nat → Nat → Bool}

theorem settle_cons_self {name : Name} {n s : Nat} {rest : List (Name × Nat)} :
    settle due ((name, n) :: rest) (name, s) =
      if due (s / SIZE_CONV) n then n * SIZE_CONV else s := by
  simp [settle]

theorem settle_cons_ne {name : Name} {n : Nat} {rest : List (Name × Nat)} {p : Name × Nat}
    (h : p.1 ≠ name) : settle due ((name, n) :: rest) p = settle due rest p := by
  have hne : (p.1 == name) = false := by simpa using h
  simp only [settle, List.lookup_cons, hne]

theorem settle_of_not_mem {name : Name} {s : Nat} {entries : List (Name × Nat)}
    (h : name ∉ entries.map Prod.fst) : settle due entries (name, s) = s := by
  simp [settle, lookup_eq_none_iff.mpr h]

/-- Growing one element of a sum stays below a sum that is pointwise larger. -/
theorem sum_add_le {l : List (Name × Nat)} {f : Name × Nat → Nat} {p : Name × Nat}
    (hf : ∀ q ∈ l, q.2 ≤ f q) (hp : p ∈ l) :
    (l.map Prod.snd).sum + (f p - p.2) ≤ (l.map f).sum := by
  induction l with
  | nil => cases hp
  | cons q l ih =>
    have hq := hf q List.mem_cons_self
    have hl : ∀ q ∈ l, q.2 ≤ f q := fun q hq => hf q (List.mem_cons_of_mem _ hq)
    simp only [List.map_cons, List.sum_cons]
    obtain rfl | hp := List.mem_cons.mp hp
    · have hle : (l.map Prod.snd).sum ≤ (l.map f).sum := List.sum_le_sum hl
      omega
    · have hle := ih hl hp
      omega

/-- Names are distinct, so a pool of the name is the pool of the name. -/
theorem eq_of_name {t : PoolTable} {name : Name} {s : Nat} (hs : t.size name = some s) :
    ∀ p ∈ t.pools, p.1 = name → p = (name, s) := by
  rintro ⟨m, u⟩ hp rfl
  have heq := (lookup_of_mem t.nodup hp).symm.trans hs
  cases heq
  rfl

/-- What the loop makes of the pools once it has resized the first one listed. -/
theorem settle_sized {t : PoolTable} {name : Name} {n s : Nat} {rest : List (Name × Nat)}
    (hs : t.size name = some s) (hnot : name ∉ rest.map Prod.fst)
    (hdue : due (s / SIZE_CONV) n = true) : ∀ p ∈ t.pools,
      settle due rest (p.1, if p.1 = name then n * SIZE_CONV else p.2) =
        settle due ((name, n) :: rest) p := by
  intro p hp
  by_cases hpn : p.1 = name
  · rw [if_pos hpn, hpn, settle_of_not_mem hnot, eq_of_name hs p hp hpn, settle_cons_self,
      if_pos hdue]
  · rw [if_neg hpn, settle_cons_ne hpn]

/-- The same where the first one listed is not due. -/
theorem settle_skipped {t : PoolTable} {name : Name} {n s : Nat} {rest : List (Name × Nat)}
    (hs : t.size name = some s) (hnot : name ∉ rest.map Prod.fst)
    (hdue : ¬due (s / SIZE_CONV) n = true) : ∀ p ∈ t.pools,
      settle due rest p = settle due ((name, n) :: rest) p := by
  intro p hp
  by_cases hpn : p.1 = name
  · rw [eq_of_name hs p hp hpn, settle_of_not_mem hnot, settle_cons_self, if_neg hdue]
  · rw [settle_cons_ne hpn]

/-- A pool that is due has the memory it is to get, and its bytes do not wrap around. -/
theorem room_of_due {t : PoolTable} {name : Name} {n s : Nat} {rest : List (Name × Nat)}
    (hs : t.size name = some s) (hdue : due (s / SIZE_CONV) n = true)
    (hroom : (t.pools.map fun p => max p.2 (settle due ((name, n) :: rest) p)).sum ≤ t.capacity) :
    n * SIZE_CONV - s ≤ t.unreserved ∧ n * SIZE_CONV % 2 ^ 64 = n * SIZE_CONV := by
  have hmem := mem_of_lookup hs
  have hnew : settle due ((name, n) :: rest) (name, s) = n * SIZE_CONV := by
    rw [settle_cons_self, if_pos hdue]
  constructor
  · have hsum := sum_add_le (f := fun p => max p.2 (settle due ((name, n) :: rest) p))
      (fun q _ => Nat.le_max_left ..) hmem
    simp only [hnew] at hsum
    unfold unreserved
    omega
  · refine Nat.mod_eq_of_lt (Nat.lt_of_le_of_lt ?_ t.bounded)
    have hmax : max s (n * SIZE_CONV) ≤
        (t.pools.map fun p => max p.2 (settle due ((name, n) :: rest) p)).sum := by
      refine List.single_le_sum (fun _ _ => Nat.zero_le _) _ (List.mem_map.mpr ⟨_, hmem, ?_⟩)
      rw [hnew]
    omega

/-- A loop with memory for whatever it does on the way gives every pool its size. -/
theorem resizeLoop_of_room (due : Nat → Nat → Bool) {entries : List (Name × Nat)} {t : PoolTable}
    (hnodup : (entries.map Prod.fst).Nodup) (hreg : ∀ e ∈ entries, (t.size e.1).isSome = true)
    (hroom : (t.pools.map fun p => max p.2 (settle due entries p)).sum ≤ t.capacity) :
    ∃ t' done, resizeLoop due t entries = .ok (t', done) ∧
      Resized t t' (t.pools.map fun p => (p.1, settle due entries p)) ∧ some false ∉ done := by
  induction entries generalizing t with
  | nil =>
    refine ⟨t, [], rfl, ⟨rfl, rfl, ?_⟩, by simp⟩
    exact (List.map_id t.pools).symm
  | cons e rest ih =>
    obtain ⟨name, n⟩ := e
    rw [List.map_cons, List.nodup_cons] at hnodup
    obtain ⟨s, hs⟩ := Option.isSome_iff_exists.mp (hreg _ List.mem_cons_self)
    simp only [resizeLoop, getPoolSizeFromName_of_size hs]
    by_cases hdue : due (s / SIZE_CONV) n = true
    · obtain ⟨hfits, hsmall⟩ := room_of_due hs hdue hroom
      have hsettle := settle_sized hs hnodup.1 hdue
      obtain ⟨t₁, done, hok, hresized, hdone⟩ := resizePool_of_room hs hfits
      have hroom₁ : (t₁.pools.map fun p => max p.2 (settle due rest p)).sum ≤ t₁.capacity := by
        rw [hresized.capacity, hresized.pools, sized, List.map_map]
        refine Nat.le_trans (List.sum_le_sum fun p hp => ?_) hroom
        simp only [Function.comp_apply, hsettle p hp]
        by_cases hpn : p.1 = name
        · rw [if_pos hpn, eq_of_name hs p hp hpn, settle_cons_self, if_pos hdue]
          omega
        · rw [if_neg hpn]
      have hreg₁ : ∀ e ∈ rest, (t₁.size e.1).isSome = true := by
        intro e he
        have hsome := hreg e (List.mem_cons_of_mem _ he)
        rw [size, hresized.pools, sized, lookup_map]
        simpa [size] using hsome
      obtain ⟨t', done', hok', hresized', hdone'⟩ := ih hnodup.2 hreg₁ hroom₁
      rw [if_pos hdue, hsmall, hok]
      simp only [hok', Except.map]
      refine ⟨t', done :: done', rfl, ⟨hresized'.capacity.trans hresized.capacity,
        hresized'.poolSize.trans hresized.poolSize, ?_⟩, ?_⟩
      · rw [hresized'.pools, hresized.pools, sized, List.map_map]
        exact List.map_congr_left fun p hp => by simp [hsettle p hp]
      · rw [List.mem_cons, not_or]
        exact ⟨Ne.symm hdone, hdone'⟩
    · have hsettle := settle_skipped hs hnodup.1 hdue
      have hroom₁ : (t.pools.map fun p => max p.2 (settle due rest p)).sum ≤ t.capacity := by
        rw [List.map_congr_left fun p hp => by rw [hsettle p hp]]
        exact hroom
      rw [if_neg hdue]
      obtain ⟨t', done, hok, hresized, hdone⟩ := ih hnodup.2
        (fun e he => hreg e (List.mem_cons_of_mem _ he)) hroom₁
      refine ⟨t', done, hok, ⟨hresized.capacity, hresized.poolSize, ?_⟩, hdone⟩
      rw [hresized.pools]
      exact List.map_congr_left fun p hp => by rw [hsettle p hp]

/-- Whatever memory there is, a loop over pools that are there ends, with the same pools there;
a pool that is never due keeps its size. -/
theorem resizeLoop_keep (due : Nat → Nat → Bool) {entries : List (Name × Nat)} {t : PoolTable}
    (hreg : ∀ e ∈ entries, (t.size e.1).isSome = true) :
    ∃ t' done, resizeLoop due t entries = .ok (t', done) ∧
      (∀ name s, t.size name = some s →
        (∀ e ∈ entries, e.1 = name → due (s / SIZE_CONV) e.2 = false) → t'.size name = some s) ∧
      ∀ other, (t'.size other).isSome = (t.size other).isSome := by
  induction entries generalizing t with
  | nil => exact ⟨t, [], rfl, fun _ _ hs _ => hs, fun _ => rfl⟩
  | cons e rest ih =>
    obtain ⟨other, n⟩ := e
    obtain ⟨u, hu⟩ := Option.isSome_iff_exists.mp (hreg _ List.mem_cons_self)
    have hrest : ∀ e ∈ rest, (t.size e.1).isSome = true :=
      fun e he => hreg e (List.mem_cons_of_mem _ he)
    simp only [resizeLoop, getPoolSizeFromName_of_size hu]
    by_cases hd : due (u / SIZE_CONV) n = true
    · obtain ⟨t₁, done, hok, hkeep, hsome⟩ := resizePool_keep (n * SIZE_CONV % 2 ^ 64) hu
      obtain ⟨t', done', hok', hkeep', hsome'⟩ := ih fun e he => (hsome e.1).trans (hrest e he)
      rw [if_pos hd, hok]
      simp only [hok', Except.map]
      refine ⟨t', done :: done', rfl, fun name s hs hdue => ?_, fun m => (hsome' m).trans (hsome m)⟩
      have hne : name ≠ other := by
        rintro rfl
        obtain rfl := Option.some.inj (hu.symm.trans hs)
        rw [hdue _ List.mem_cons_self rfl] at hd
        cases hd
      exact hkeep' name s ((hkeep name hne).trans hs)
        fun e he => hdue e (List.mem_cons_of_mem _ he)
    · rw [if_neg hd]
      obtain ⟨t', done, hok, hkeep, hsome⟩ := ih hrest
      exact ⟨t', done, hok, fun name s hs hdue => hkeep name s hs
        fun e he => hdue e (List.mem_cons_of_mem _ he), hsome⟩

/-! ## Both loops -/

/-- The configuration can be applied: it lists distinct pools that are there, and what it
gives them and the sizes of the others fit into the memory. -/
structure Feasible (t : PoolTable) (entries : List (Name × Nat)) : Prop where
  distinct : (entries.map Prod.fst).Nodup
  registered : ∀ e ∈ entries, (t.size e.1).isSome = true
  room : (entries.map fun e => e.2 * SIZE_CONV).sum +
    ((t.pools.filter fun p => decide (p.1 ∉ entries.map Prod.fst)).map Prod.snd).sum ≤ t.capacity

/-- Size a pool is to have. -/
def target (entries : List (Name × Nat)) (p : Name × Nat) : Nat :=
  match entries.lookup p.1 with
  | some n => n * SIZE_CONV
  | none => p.2

theorem sum_filter_add (l : List (Name × Nat)) (q : Name × Nat → Bool) (f : Name × Nat → Nat) :
    ((l.filter q).map f).sum + ((l.filter fun p => !q p).map f).sum = (l.map f).sum := by
  induction l with
  | nil => rfl
  | cons p l ih =>
    cases hq : q p <;> simp only [List.filter_cons, hq, List.map_cons, List.sum_cons, if_true,
      Bool.not_true, Bool.not_false, Bool.false_eq_true, if_false] <;> omega

/-- What the pools are to have is what the configuration lists and what the others have. -/
theorem Feasible.sum_target {t : PoolTable} {entries : List (Name × Nat)} (h : Feasible t entries) :
    (t.pools.map (target entries)).sum ≤ t.capacity := by
  have hsplit := sum_filter_add t.pools (fun p => decide (p.1 ∈ entries.map Prod.fst))
    (target entries)
  -- the unlisted pools
  have hunlisted : (t.pools.filter fun p => !decide (p.1 ∈ entries.map Prod.fst)).map
      (target entries) =
      (t.pools.filter fun p => decide (p.1 ∉ entries.map Prod.fst)).map Prod.snd := by
    have hfilter : (t.pools.filter fun p => !decide (p.1 ∈ entries.map Prod.fst)) =
        t.pools.filter fun p => decide (p.1 ∉ entries.map Prod.fst) :=
      List.filter_congr fun p _ => (decide_not).symm
    rw [hfilter]
    refine List.map_congr_left fun p hp => ?_
    have hnot := of_decide_eq_true (List.mem_filter.mp hp).2
    simp [target, lookup_eq_none_iff.mpr hnot]
  -- the listed ones are the entries, by their names
  have hperm : ((t.pools.filter fun p => decide (p.1 ∈ entries.map Prod.fst)).map Prod.fst).Perm
      (entries.map Prod.fst) := by
    refine (List.perm_ext_iff_of_nodup ?_ h.distinct).mpr fun name => ⟨fun hm => ?_, fun hm => ?_⟩
    · exact t.nodup.sublist (List.filter_sublist.map Prod.fst)
    · obtain ⟨p, hp, rfl⟩ := List.mem_map.mp hm
      exact of_decide_eq_true (List.mem_filter.mp hp).2
    · obtain ⟨e, he, rfl⟩ := List.mem_map.mp hm
      obtain ⟨s, hs⟩ := Option.isSome_iff_exists.mp (h.registered e he)
      exact List.mem_map.mpr ⟨_, List.mem_filter.mpr ⟨mem_of_lookup hs, decide_eq_true hm⟩, rfl⟩
  have hlisted : ((t.pools.filter fun p => decide (p.1 ∈ entries.map Prod.fst)).map
      (target entries)).sum = (entries.map fun e => e.2 * SIZE_CONV).sum := by
    have hname : ∀ name, target entries (name, 0) = ((entries.lookup name).getD 0) * SIZE_CONV := by
      intro name
      unfold target
      cases entries.lookup name <;> simp
    have hpools : (t.pools.filter fun p => decide (p.1 ∈ entries.map Prod.fst)).map
        (target entries) =
        ((t.pools.filter fun p => decide (p.1 ∈ entries.map Prod.fst)).map Prod.fst).map
          fun name => target entries (name, 0) := by
      rw [List.map_map]
      refine List.map_congr_left fun p hp => ?_
      have hin := of_decide_eq_true (List.mem_filter.mp hp).2
      cases hl : entries.lookup p.1 with
      | none => exact absurd hin (lookup_eq_none_iff.mp hl)
      | some n => simp [target, hl]
    have hentries : (entries.map fun e => e.2 * SIZE_CONV) =
        (entries.map Prod.fst).map fun name => target entries (name, 0) := by
      rw [List.map_map]
      refine List.map_congr_left fun e he => ?_
      simp [target, lookup_of_mem h.distinct he]
    rw [hpools, hentries]
    exact (hperm.map _).sum_eq
  have hroom := h.room
  rw [hunlisted, hlisted] at hsplit
  omega

/-- The listed pools have exactly the sizes that are listed, the others what they had, and no
resizing has failed. -/
structure Applied (t : PoolTable) (entries : List (Name × Nat)) (t' : PoolTable)
    (done : List (Option Bool)) : Prop where
  listed : ∀ e ∈ entries, t'.size e.1 = some (e.2 * SIZE_CONV)
  unlisted : ∀ name, name ∉ entries.map Prod.fst → t'.size name = t.size name
  succeeded : some false ∉ done

/-- The configuration is applied exactly, and in any other order with the same result. -/
def AppliesExactly (t : PoolTable) (config : List UInt8) : Prop :=
  ∃ t' done, t.executeNewConfig config = .ok (t', done) ∧ Applied t (parseConfig config) t' done ∧
    ∀ config', (parseConfig config').Perm (parseConfig config) →
      ∃ done', t.executeNewConfig config' = .ok (t', done')

/-- No listed pool has, in whole units, already the size it is to have, and some bytes more. -/
def WholeUnits (t : PoolTable) (entries : List (Name × Nat)) : Prop :=
  ∀ e ∈ entries, ∀ s, t.size e.1 = some s → s / SIZE_CONV = e.2 → s = e.2 * SIZE_CONV

/-- The first loop only shrinks. -/
theorem settle_shrink_le (entries : List (Name × Nat)) (p : Name × Nat) :
    settle (fun currSize poolSize => decide (currSize > poolSize)) entries p ≤ p.2 := by
  unfold settle
  cases entries.lookup p.1 with
  | none => exact Nat.le_refl _
  | some n =>
    simp only [decide_eq_true_eq]
    split_ifs with hgt
    · exact Nat.le_trans (Nat.mul_le_mul_right _ (Nat.le_of_lt hgt)) (Nat.div_mul_le_self ..)
    · exact Nat.le_refl _

/-- Behind the first loop no pool is above its target, and the second one takes it there. -/
theorem settle_settle {t : PoolTable} {entries : List (Name × Nat)}
    (hwhole : WholeUnits t entries) {p : Name × Nat} (hp : p ∈ t.pools) :
    settle (fun currSize poolSize => decide (currSize < poolSize)) entries
        (p.1, settle (fun currSize poolSize => decide (currSize > poolSize)) entries p) =
      target entries p ∧
    settle (fun currSize poolSize => decide (currSize > poolSize)) entries p ≤
      target entries p := by
  unfold settle target
  cases hl : entries.lookup p.1 with
  | none => exact ⟨rfl, Nat.le_refl _⟩
  | some n =>
    have hpos : 0 < SIZE_CONV := by decide
    simp only [decide_eq_true_eq]
    split_ifs with hgt hlt hlt
    · rw [Nat.mul_div_cancel _ hpos] at hlt
      exact absurd hlt (Nat.lt_irrefl _)
    · exact ⟨rfl, Nat.le_refl _⟩
    · exact ⟨rfl, Nat.le_of_lt ((Nat.div_lt_iff_lt_mul hpos).mp hlt)⟩
    · have heq : p.2 = n * SIZE_CONV :=
        hwhole (p.1, n) (mem_of_lookup hl) p.2 (lookup_of_mem t.nodup hp) (by omega)
      exact ⟨heq, Nat.le_of_eq heq⟩

/-- Shrinking and then growing gives every pool its target. -/
theorem executeNewConfig_of_feasible {t : PoolTable} {config : List UInt8}
    (h : Feasible t (parseConfig config)) (hwhole : WholeUnits t (parseConfig config)) :
    ∃ t' done, t.executeNewConfig config = .ok (t', done) ∧
      Resized t t' (t.pools.map fun p => (p.1, target (parseConfig config) p)) ∧
      some false ∉ done := by
  generalize hentries : parseConfig config = entries at *
  -- the first loop needs no memory
  have hroom : (t.pools.map fun p => max p.2
      (settle (fun currSize poolSize => decide (currSize > poolSize)) entries p)).sum ≤
        t.capacity := by
    rw [List.map_congr_left fun p _ => Nat.max_eq_left (settle_shrink_le entries p)]
    exact t.fits
  obtain ⟨t₁, done₁, hok₁, hres₁, hdone₁⟩ := resizeLoop_of_room
    (fun currSize poolSize => decide (currSize > poolSize)) h.distinct h.registered hroom
  have hreg₁ : ∀ e ∈ entries, (t₁.size e.1).isSome = true := by
    intro e he
    have hsome := h.registered e he
    rw [size, hres₁.pools, lookup_map]
    simpa [size] using hsome
  have hroom₁ : (t₁.pools.map fun p => max p.2
      (settle (fun currSize poolSize => decide (currSize < poolSize)) entries p)).sum ≤
        t₁.capacity := by
    rw [hres₁.capacity, hres₁.pools, List.map_map]
    refine Nat.le_trans (List.sum_le_sum fun p hp => ?_) h.sum_target
    obtain ⟨heq, hle⟩ := settle_settle hwhole hp
    simp only [Function.comp_apply, heq]
    exact Nat.max_le.mpr ⟨hle, Nat.le_refl _⟩
  obtain ⟨t₂, done₂, hok₂, hres₂, hdone₂⟩ := resizeLoop_of_room
    (fun currSize poolSize => decide (currSize < poolSize)) h.distinct hreg₁ hroom₁
  refine ⟨t₂, done₁ ++ done₂, ?_, ⟨hres₂.capacity.trans hres₁.capacity,
    hres₂.poolSize.trans hres₁.poolSize, ?_⟩, ?_⟩
  · simp only [executeNewConfig, hentries, shrinkLoop, hok₁, growLoop, hok₂, Except.map]
  · rw [hres₂.pools, hres₁.pools, List.map_map]
    exact List.map_congr_left fun p hp => by simp [(settle_settle hwhole hp).1]
  · simp [hdone₁, hdone₂]

/-- The order of distinct entries does not matter to a target. -/
theorem target_perm {entries entries' : List (Name × Nat)} (hperm : entries'.Perm entries)
    (hnodup : (entries.map Prod.fst).Nodup) : target entries' = target entries := by
  funext p
  simp only [target, lookup_perm hperm hnodup]

theorem Feasible.perm {t : PoolTable} {entries entries' : List (Name × Nat)}
    (h : Feasible t entries) (hperm : entries'.Perm entries) : Feasible t entries' where
  distinct := (hperm.map Prod.fst).nodup_iff.mpr h.distinct
  registered e he := h.registered e (hperm.mem_iff.mp he)
  room := by
    have hmem : ∀ name, name ∉ entries'.map Prod.fst ↔ name ∉ entries.map Prod.fst :=
      fun name => not_congr (hperm.map Prod.fst).mem_iff
    rw [(hperm.map _).sum_eq, List.filter_congr fun p _ => decide_eq_decide.mpr (hmem p.1)]
    exact h.room

/-- A feasible configuration is applied exactly, whatever its order, if and only if no listed
pool has, in whole units, already the size it is to have, and some bytes more. -/
theorem appliesExactly_iff {t : PoolTable} {config : List UInt8}
    (h : Feasible t (parseConfig config)) :
    AppliesExactly t config ↔ WholeUnits t (parseConfig config) := by
  constructor
  · rintro ⟨t', done, hok, happlied, -⟩ e he s hs hunits
    -- a pool with the right number of units is due in neither loop
    have hsame : ∀ e' ∈ parseConfig config, e'.1 = e.1 → e'.2 = e.2 := by
      intro e' he' heq
      have hl := lookup_of_mem h.distinct he'
      rw [heq, lookup_of_mem h.distinct he] at hl
      exact (Option.some.inj hl).symm
    obtain ⟨t₁, done₁, hok₁, hkeep₁, hsome₁⟩ := resizeLoop_keep
      (fun currSize poolSize => decide (currSize > poolSize)) h.registered
    have hs₁ := hkeep₁ e.1 s hs fun e' he' heq => by simp [hsame e' he' heq, hunits]
    obtain ⟨t₂, done₂, hok₂, hkeep₂, -⟩ := resizeLoop_keep
      (fun currSize poolSize => decide (currSize < poolSize))
      fun e' he' => (hsome₁ e'.1).trans (h.registered e' he')
    have hs₂ := hkeep₂ e.1 s hs₁ fun e' he' heq => by simp [hsame e' he' heq, hunits]
    simp only [executeNewConfig, shrinkLoop, hok₁, growLoop, hok₂, Except.map] at hok
    cases hok
    exact Option.some.inj (hs₂.symm.trans (happlied.listed e he))
  · intro hwhole
    obtain ⟨t', done, hok, hresized, hdone⟩ := executeNewConfig_of_feasible h hwhole
    have hsize : ∀ name, t'.size name =
        (t.size name).map fun s => target (parseConfig config) (name, s) := fun name => by
      rw [size, hresized.pools, lookup_map]
      rfl
    refine ⟨t', done, hok, ⟨fun e he => ?_, fun name hname => ?_, hdone⟩, fun config' hperm => ?_⟩
    · obtain ⟨s, hs⟩ := Option.isSome_iff_exists.mp (h.registered e he)
      simp [hsize, hs, target, lookup_of_mem h.distinct he]
    · rw [hsize]
      cases t.size name with
      | none => rfl
      | some s => simp [target, lookup_eq_none_iff.mpr hname]
    · have hwhole' : WholeUnits t (parseConfig config') :=
        fun e he => hwhole e (hperm.mem_iff.mp he)
      obtain ⟨t₂, done₂, hok₂, hres₂, -⟩ := executeNewConfig_of_feasible (h.perm hperm) hwhole'
      rw [target_perm hperm h.distinct] at hres₂
      rw [hresized.eq hres₂]
      exact ⟨done₂, hok₂⟩

/-- Two pools `a` and `b` of 31 MB in 1 GB. -/
def twoPools : PoolTable where
  capacity := 1024 * MB_SIZE
  poolSize := 31 * MB_SIZE
  pools := [([97], 31 * MB_SIZE), ([98], 31 * MB_SIZE)]
  nodup := by decide
  fits := by decide
  bounded := by decide

/-- One unit for `a` and 63 units for `b`: they would fill the memory, but `a` keeps its 31 MB
and `b` does not get the memory. -/
theorem not_appliesExactly_twoPools :
    Feasible twoPools (parseConfig [97, 32, 98, 10, 49, 32, 54, 51]) ∧
      ¬ AppliesExactly twoPools [97, 32, 98, 10, 49, 32, 54, 51] := by
  have hparse : parseConfig [97, 32, 98, 10, 49, 32, 54, 51] = [([97], 1), ([98], 63)] := by
    decide +kernel
  refine ⟨by rw [hparse]; exact ⟨by decide, by decide, by decide⟩, ?_⟩
  rintro ⟨t', done, hok, happlied, -⟩
  have hdone : (twoPools.executeNewConfig [97, 32, 98, 10, 49, 32, 54, 51]).map Prod.snd =
      .ok [some false] := by
    decide +kernel
  rw [hok] at hdone
  have hlist : done = [some false] := Except.ok.inj hdone
  exact happlied.succeeded (by rw [hlist]; decide)

/-- Two units for `a` and 62 units for `b`. -/
theorem appliesExactly_iff_twoPools :
    AppliesExactly twoPools [97, 32, 98, 10, 50, 32, 54, 50] ↔
      WholeUnits twoPools (parseConfig [97, 32, 98, 10, 50, 32, 54, 50]) :=
  appliesExactly_iff (by
    have hparse : parseConfig [97, 32, 98, 10, 50, 32, 54, 50] = [([97], 2), ([98], 62)] := by
      decide +kernel
    rw [hparse]
    exact ⟨by decide, by decide, by decide⟩)

end PoolTable

end CachelibArchive.Control
