import CachelibArchive.Core.Text
import Mathlib.Algebra.GroupWithZero.Nat
import Mathlib.Algebra.Order.BigOperators.Group.List
import Mathlib.Data.List.Nodup

/-!
# The pools of the cache

The pools CacheLib has handed out memory to, by pool id, with the operations of
`cachelibHeader` on them. Pools have distinct names and together at most the memory
there is.
-/

namespace CachelibArchive.Control

/-- A string, as its bytes. -/
abbrev Name := List UInt8

/-- Bytes in a MB. -/
abbrev MB_SIZE : Nat := 1024 * 1024

/-- Unit of cache resize. -/
abbrev SIZE_CONV : Nat := 16 * 1024 * 1024

/-- What takes the server down. -/
inductive Fault where
  /-- `out_of_range`, from the constructor of a substring. -/
  | outOfRange
  /-- A read behind the end of a buffer. -/
  | outOfBounds
  /-- The id is not that of a pool. -/
  | invalidPool
  /-- There is no memory left for the pool. -/
  | noMemory
  /-- `exit(EXIT_FAILURE)` -/
  | exited
  /-- An access through a null pointer. -/
  | nullPointer
  deriving DecidableEq

/-- The pools, by pool id, each with its size in bytes. -/
@[ext] structure PoolTable where
  /-- Memory there is for pools. -/
  capacity : Nat
  /-- `poolSize`: what a new pool gets. -/
  poolSize : Nat
  /-- Names and sizes. -/
  pools : List (Name × Nat)
  nodup : (pools.map Prod.fst).Nodup
  fits : (pools.map Prod.snd).sum ≤ capacity
  bounded : capacity < 2 ^ 64

namespace PoolTable

/-- `unReservedSize` -/
def unreserved (t : PoolTable) : Nat := t.capacity - (t.pools.map Prod.snd).sum

/-- `getPoolId`; `none` for `-1` -/
def getPoolId (t : PoolTable) (name : Name) : Option Nat :=
  t.pools.findIdx? fun p => p.1 == name

/-- `getPoolStats`: raises for what is not a pool. -/
def getPoolStats (t : PoolTable) (pid : Option Nat) : Except Fault (Name × Nat) :=
  match pid.bind (t.pools[·]?) with
  | some p => .ok p
  | none => .error .invalidPool

theorem map_fst_modify (l : List (Name × Nat)) (i : Nat) (f : Nat → Nat) :
    (l.modify i fun p => (p.1, f p.2)).map Prod.fst = l.map Prod.fst := by
  induction l generalizing i with
  | nil => cases i <;> rfl
  | cons p l ih =>
    cases i with
    | zero => rfl
    | succ i => simp [ih i]

theorem sum_grow (l : List (Name × Nat)) (i b : Nat) :
    ((l.modify i fun p => (p.1, p.2 + b)).map Prod.snd).sum ≤ (l.map Prod.snd).sum + b := by
  induction l generalizing i with
  | nil => cases i <;> simp
  | cons p l ih =>
    cases i with
    | zero =>
      simp
      omega
    | succ i =>
      have h := ih i
      simp only [List.modify_succ_cons, List.map_cons, List.sum_cons]
      omega

theorem sum_shrink (l : List (Name × Nat)) (i b : Nat) :
    ((l.modify i fun p => (p.1, p.2 - b)).map Prod.snd).sum ≤ (l.map Prod.snd).sum := by
  induction l generalizing i with
  | nil => cases i <;> simp
  | cons p l ih =>
    cases i with
    | zero => simp
    | succ i =>
      have h := ih i
      simp only [List.modify_succ_cons, List.map_cons, List.sum_cons]
      omega

/-- `growPool`: fails when the memory is not there. -/
def growPool (t : PoolTable) (pid b : Nat) : PoolTable × Bool :=
  if h : b ≤ t.unreserved then
    ({ t with
       pools := t.pools.modify pid fun p => (p.1, p.2 + b)
       nodup := by
         rw [map_fst_modify t.pools pid (· + b)]
         exact t.nodup
       fits := by
         have hsum := sum_grow t.pools pid b
         have hfits := t.fits
         unfold unreserved at h
         omega }, true)
  else (t, false)

/-- `shrinkPool`: fails when the pool is smaller than that. -/
def shrinkPool (t : PoolTable) (pid b : Nat) : PoolTable × Bool :=
  if t.pools[pid]?.any fun p => decide (b ≤ p.2) then
    ({ t with
       pools := t.pools.modify pid fun p => (p.1, p.2 - b)
       nodup := by
         rw [map_fst_modify t.pools pid (· - b)]
         exact t.nodup
       fits := Nat.le_trans (sum_shrink t.pools pid b) t.fits }, true)
  else (t, false)

/-- `addPool`: raises when the memory is not there, or the pool already is. -/
def addPool (t : PoolTable) (name : Name) (size : Nat) : Except Fault (PoolTable × Nat) :=
  if h : name ∉ t.pools.map Prod.fst ∧ size ≤ t.unreserved then
    .ok ({ t with
           pools := t.pools ++ [(name, size)]
           nodup := by
             rw [List.map_append, List.map_singleton, ← List.concat_eq_append]
             exact List.Nodup.concat h.1 t.nodup
           fits := by
             have hfits := t.fits
             have hsize := h.2
             unfold unreserved at hsize
             rw [List.map_append, List.sum_append]
             simp only [List.map_cons, List.map_nil, List.sum_singleton]
             omega }, t.pools.length)
  else .error .noMemory

/-- `addpool_` -/
def addpool_ (t : PoolTable) (poolName : Name) : Except Fault (PoolTable × Nat) :=
  match t.getPoolId poolName with
  | some poolId => .ok (t, poolId)
  | none => t.addPool poolName t.poolSize

/-- `getPoolSizeFromName` -/
def getPoolSizeFromName (t : PoolTable) (poolName : Name) : Except Fault Nat :=
  (t.getPoolStats (t.getPoolId poolName)).map Prod.snd

/-- `resizePool`, with what `growPool` or `shrinkPool` has returned. -/
def resizePool (t : PoolTable) (poolName : Name) (newSize : Nat) :
    Except Fault (PoolTable × Option Bool) :=
  match t.getPoolId poolName with
  | none => .error .invalidPool
  | some pid =>
    match t.getPoolStats (some pid) with
    | .error e => .error e
    | .ok (_, currSize) =>
      if newSize > currSize then
        let (t, done) := t.growPool pid (newSize - currSize)
        .ok (t, some done)
      else if newSize < currSize then
        let (t, done) := t.shrinkPool pid (currSize - newSize)
        .ok (t, some done)
      else .ok (t, none)

/-- Names of the pools, by pool id. -/
def names (t : PoolTable) : List Name := t.pools.map Prod.fst

/-- A name is entered behind the others unless it is there. -/
def enter (names : List Name) (name : Name) : List Name :=
  if name ∈ names then names else names ++ [name]

/-! ## Sizes by name -/

/-- Size of a pool. -/
def size (t : PoolTable) (name : Name) : Option Nat := t.pools.lookup name

theorem lookup_map (l : List (Name × Nat)) (f : Name × Nat → Nat) (name : Name) :
    (l.map fun p => (p.1, f p)).lookup name = (l.lookup name).map fun s => f (name, s) := by
  induction l with
  | nil => rfl
  | cons p l ih =>
    obtain ⟨n, s⟩ := p
    simp only [List.map_cons, List.lookup_cons]
    cases hn : name == n with
    | false => exact ih
    | true =>
      obtain rfl := eq_of_beq hn
      rfl

theorem lookup_eq_none_iff {β : Type*} {l : List (Name × β)} {name : Name} :
    l.lookup name = none ↔ name ∉ l.map Prod.fst := by
  rw [List.lookup_eq_none_iff, List.mem_map]
  constructor
  · rintro h ⟨p, hp, rfl⟩
    have hne := h p hp
    simp at hne
  · intro h p hp
    have hne : name ≠ p.1 := fun heq => h ⟨p, hp, heq.symm⟩
    simpa using hne

theorem mem_of_lookup {β : Type*} {l : List (Name × β)} {name : Name} {s : β}
    (h : l.lookup name = some s) : (name, s) ∈ l := by
  induction l with
  | nil => cases h
  | cons p l ih =>
    rw [List.lookup_cons] at h
    cases hp : name == p.1 with
    | true =>
      rw [hp] at h
      cases h
      rw [eq_of_beq hp]
      exact List.mem_cons_self
    | false =>
      rw [hp] at h
      exact List.mem_cons_of_mem _ (ih h)

theorem lookup_of_mem {β : Type*} {l : List (Name × β)} {p : Name × β}
    (hnodup : (l.map Prod.fst).Nodup) (h : p ∈ l) : l.lookup p.1 = some p.2 := by
  induction l with
  | nil => cases h
  | cons q l ih =>
    rw [List.map_cons, List.nodup_cons] at hnodup
    rw [List.lookup_cons]
    obtain rfl | h := List.mem_cons.mp h
    · simp
    · have hne : p.1 ≠ q.1 := fun heq => hnodup.1 (heq ▸ List.mem_map_of_mem h)
      have hbeq : (p.1 == q.1) = false := by simpa using hne
      rw [hbeq]
      exact ih hnodup.2 h

/-- Among distinct names the order does not matter. -/
theorem lookup_perm {β : Type*} {l l' : List (Name × β)} (hperm : l'.Perm l)
    (hnodup : (l.map Prod.fst).Nodup) (name : Name) : l'.lookup name = l.lookup name := by
  have hnodup' : (l'.map Prod.fst).Nodup := (hperm.map Prod.fst).nodup_iff.mpr hnodup
  cases h : l.lookup name with
  | some s => exact lookup_of_mem hnodup' (hperm.mem_iff.mpr (mem_of_lookup h))
  | none =>
    rw [lookup_eq_none_iff] at h ⊢
    exact fun hm => h ((hperm.map Prod.fst).mem_iff.mp hm)

/-- A pool that is there is found at its id. -/
theorem findIdx_of_lookup {l : List (Name × Nat)} {name : Name} {s : Nat}
    (h : l.lookup name = some s) :
    ∃ i, l.findIdx? (fun p => p.1 == name) = some i ∧ l[i]? = some (name, s) := by
  induction l with
  | nil => cases h
  | cons p l ih =>
    obtain ⟨n, s'⟩ := p
    rw [List.lookup_cons] at h
    rw [List.findIdx?_cons]
    cases hn : name == n with
    | true =>
      obtain rfl := eq_of_beq hn
      rw [hn] at h
      cases h
      exact ⟨0, by simp, rfl⟩
    | false =>
      rw [hn] at h
      obtain ⟨i, hi, hget⟩ := ih h
      have hn' : (n == name) = false := by rw [BEq.comm, hn]
      exact ⟨i + 1, by simp [hn', hi], hget⟩

theorem findIdx_eq_none {l : List (Name × Nat)} {name : Name} (h : l.lookup name = none) :
    l.findIdx? (fun p => p.1 == name) = none := by
  rw [List.findIdx?_eq_none_iff]
  intro p hp
  have hne := List.lookup_eq_none_iff.mp h p hp
  rw [BEq.comm]
  simpa using hne

/-- Among distinct names, changing the pool at an id is changing the one of that name. -/
theorem modify_eq_map {l : List (Name × Nat)} {i : Nat} {name : Name} {s : Nat}
    (hnodup : (l.map Prod.fst).Nodup) (hi : l[i]? = some (name, s)) (f : Nat → Nat) :
    (l.modify i fun p => (p.1, f p.2)) = l.map fun p => (p.1, if p.1 = name then f s else p.2) := by
  induction l generalizing i with
  | nil => cases hi
  | cons p l ih =>
    rw [List.map_cons, List.nodup_cons] at hnodup
    cases i with
    | zero =>
      cases hi
      have hrest : l.map (fun p => (p.1, if p.1 = name then f s else p.2)) = l := by
        refine (List.map_congr_left fun q hq => ?_).trans (List.map_id l)
        have hne : q.1 ≠ name := by
          intro heq
          exact hnodup.1 (List.mem_map.mpr ⟨q, hq, heq⟩)
        simp [hne]
      simp [hrest]
    | succ i =>
      have hmem : name ∈ l.map Prod.fst :=
        List.mem_map.mpr ⟨(name, s), List.mem_of_getElem? hi, rfl⟩
      have hne : p.1 ≠ name := by
        intro heq
        exact hnodup.1 (heq ▸ hmem)
      simp [hne, ih hnodup.2 hi]

/-- The table with one pool of another size. -/
def sized (t : PoolTable) (name : Name) (new : Nat) : List (Name × Nat) :=
  t.pools.map fun p => (p.1, if p.1 = name then new else p.2)

theorem getPoolId_of_size {t : PoolTable} {name : Name} {s : Nat} (h : t.size name = some s) :
    ∃ i, t.getPoolId name = some i ∧ t.pools[i]? = some (name, s) :=
  findIdx_of_lookup h

theorem getPoolId_of_none {t : PoolTable} {name : Name} (h : t.size name = none) :
    t.getPoolId name = none :=
  findIdx_eq_none h

theorem getPoolSizeFromName_of_size {t : PoolTable} {name : Name} {s : Nat}
    (h : t.size name = some s) : t.getPoolSizeFromName name = .ok s := by
  obtain ⟨i, hid, hget⟩ := getPoolId_of_size h
  simp [getPoolSizeFromName, hid, getPoolStats, hget, Except.map]

theorem getPoolSizeFromName_of_none {t : PoolTable} {name : Name} (h : t.size name = none) :
    t.getPoolSizeFromName name = .error .invalidPool := by
  simp [getPoolSizeFromName, getPoolId_of_none h, getPoolStats, Except.map]

/-- The same memory, with pools of other sizes. -/
structure Resized (t t' : PoolTable) (pools : List (Name × Nat)) : Prop where
  capacity : t'.capacity = t.capacity
  poolSize : t'.poolSize = t.poolSize
  pools : t'.pools = pools

theorem Resized.eq {t t₁ t₂ : PoolTable} {pools : List (Name × Nat)} (h₁ : Resized t t₁ pools)
    (h₂ : Resized t t₂ pools) : t₁ = t₂ :=
  PoolTable.ext (h₁.capacity.trans h₂.capacity.symm) (h₁.poolSize.trans h₂.poolSize.symm)
    (h₁.pools.trans h₂.pools.symm)

/-- With the memory for it, a pool gets the size it is to have. -/
theorem resizePool_of_room {t : PoolTable} {name : Name} {s new : Nat} (h : t.size name = some s)
    (hroom : new - s ≤ t.unreserved) :
    ∃ t' done, t.resizePool name new = .ok (t', done) ∧ Resized t t' (t.sized name new) ∧
      done ≠ some false := by
  obtain ⟨i, hid, hget⟩ := getPoolId_of_size h
  have hmap := modify_eq_map t.nodup hget
  simp only [resizePool, hid, getPoolStats, Option.bind_some, hget]
  by_cases hgrow : new > s
  · have hnew : s + (new - s) = new := by omega
    rw [if_pos hgrow, growPool, dif_pos hroom]
    exact ⟨_, _, rfl, ⟨rfl, rfl, (hmap (· + (new - s))).trans (by rw [hnew]; rfl)⟩, by simp⟩
  · rw [if_neg hgrow]
    by_cases hshrink : new < s
    · have hnew : s - (s - new) = new := by omega
      rw [if_pos hshrink, shrinkPool, if_pos (by simp [hget])]
      exact ⟨_, _, rfl, ⟨rfl, rfl, (hmap (· - (s - new))).trans (by rw [hnew]; rfl)⟩, by simp⟩
    · rw [if_neg hshrink]
      refine ⟨t, none, rfl, ⟨rfl, rfl, ?_⟩, by simp⟩
      have hnew : new = s := by omega
      have hself := hmap id
      rw [show (t.pools.modify i fun p => (p.1, id p.2)) = t.pools from List.modify_id i t.pools]
        at hself
      rw [sized, hnew]
      exact hself

/-- Whether or not the memory is there, the other pools keep their size. -/
theorem resizePool_keep {t : PoolTable} {name : Name} (new : Nat) {s : Nat}
    (h : t.size name = some s) :
    ∃ t' done, t.resizePool name new = .ok (t', done) ∧
      (∀ other, other ≠ name → t'.size other = t.size other) ∧
      ∀ other, (t'.size other).isSome = (t.size other).isSome := by
  by_cases hroom : new - s ≤ t.unreserved
  · obtain ⟨t', done, hok, hresized, -⟩ := resizePool_of_room h hroom
    refine ⟨t', done, hok, fun other hne => ?_, fun other => ?_⟩
    · rw [size, hresized.pools, sized, lookup_map]
      simp [hne, size]
    · rw [size, hresized.pools, sized, lookup_map]
      simp [size]
  · obtain ⟨i, hid, hget⟩ := getPoolId_of_size h
    have hgrow : new > s := by omega
    refine ⟨t, some false, ?_, fun _ _ => rfl, fun _ => rfl⟩
    simp only [resizePool, hid, getPoolStats, Option.bind_some, hget, if_pos hgrow, growPool,
      dif_neg hroom]

end PoolTable

end CachelibArchive.Control
