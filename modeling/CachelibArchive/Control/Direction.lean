import CachelibArchive.Control.Resize

/-!
# The calls that resize

Both loops of `executeNewConfig` compare in whole units and ask in bytes, and the bytes are a
product taken modulo `2 ^ 64`. A pool that is to shrink has more bytes than are asked for, so
the first loop never wraps around. The second one does from `2 ^ 40` units on, and the table
has no pool so large that it would not get there.
-/

namespace CachelibArchive.Control

/-- A call of `resizePool` from a loop: the size the pool has, the units it is to have, and the
bytes that are asked for. -/
structure ResizeCall where
  poolName : Name
  currSize : Nat
  poolSize : Nat
  newSize : Nat
  deriving DecidableEq

namespace PoolTable

/-- The calls a loop makes, up to the one that raises. -/
def resizeCalls (due : Nat → Nat → Bool) (t : PoolTable) : List (Name × Nat) → List ResizeCall
  | [] => []
  | (poolName, poolSize) :: rest =>
    match t.getPoolSizeFromName poolName with
    | .error _ => []
    | .ok currSize =>
      if due (currSize / SIZE_CONV) poolSize then
        let newSize := poolSize * SIZE_CONV % 2 ^ 64
        ⟨poolName, currSize, poolSize, newSize⟩ ::
          match t.resizePool poolName newSize with
          | .error _ => []
          | .ok (t, _) => resizeCalls due t rest
      else resizeCalls due t rest

/-- The calls of the first loop. -/
def shrinkCalls : PoolTable → List (Name × Nat) → List ResizeCall :=
  resizeCalls fun currSize poolSize => decide (currSize > poolSize)

/-- The calls of the second loop. -/
def growCalls : PoolTable → List (Name × Nat) → List ResizeCall :=
  resizeCalls fun currSize poolSize => decide (currSize < poolSize)

/-- The calls of `executeNewConfig` from its first and from its second loop, which is reached if
the first one has not raised. -/
def configCalls (t : PoolTable) (config : List UInt8) : List ResizeCall × List ResizeCall :=
  let entries := parseConfig config
  (t.shrinkCalls entries, match t.shrinkLoop entries with
    | .error _ => []
    | .ok (t, _) => t.growCalls entries)

/-- Making the calls, one after the other. -/
def replay (t : PoolTable) : List ResizeCall → Except Fault (PoolTable × List (Option Bool))
  | [] => .ok (t, [])
  | c :: rest =>
    match t.resizePool c.poolName c.newSize with
    | .error e => .error e
    | .ok (t, done) => (replay t rest).map fun r => (r.1, done :: r.2)

variable {due : Nat → Nat → Bool}

/-- The calls are all that a loop does. -/
theorem replay_resizeCalls {entries : List (Name × Nat)} {t : PoolTable}
    {r : PoolTable × List (Option Bool)} (h : resizeLoop due t entries = .ok r) :
    t.replay (resizeCalls due t entries) = .ok r := by
  induction entries generalizing t r with
  | nil => exact h
  | cons e rest ih =>
    obtain ⟨poolName, poolSize⟩ := e
    rw [resizeLoop] at h
    rw [resizeCalls]
    cases hsize : t.getPoolSizeFromName poolName with
    | error f =>
      rw [hsize] at h
      cases h
    | ok currSize =>
      rw [hsize] at h
      simp only at h ⊢
      split at h
      · next hdue =>
        rw [if_pos hdue, replay]
        simp only
        cases hres : t.resizePool poolName (poolSize * SIZE_CONV % 2 ^ 64) with
        | error f =>
          rw [hres] at h
          cases h
        | ok r₁ =>
          rw [hres] at h
          simp only at h ⊢
          cases hrest : resizeLoop due r₁.1 rest with
          | error f =>
            rw [hrest] at h
            cases h
          | ok r₂ =>
            rw [hrest] at h
            rw [ih hrest]
            exact h
      · next hdue =>
        rw [if_neg hdue]
        exact ih h

/-! ## One call -/

/-- A pool has less than `2 ^ 64` bytes. -/
theorem size_lt {t : PoolTable} {name : Name} {s : Nat} (h : t.size name = some s) :
    s < 2 ^ 64 := by
  have hmem : s ∈ t.pools.map Prod.snd := List.mem_map.mpr ⟨_, mem_of_lookup h, rfl⟩
  exact (List.single_le_sum (fun _ _ => Nat.zero_le _) s hmem).trans_lt
    (t.fits.trans_lt t.bounded)

theorem size_of_getPoolSizeFromName {t : PoolTable} {name : Name} {s : Nat}
    (h : t.getPoolSizeFromName name = .ok s) : t.size name = some s := by
  cases hs : t.size name with
  | none =>
    rw [getPoolSizeFromName_of_none hs] at h
    cases h
  | some s' =>
    rw [getPoolSizeFromName_of_size hs] at h
    rw [Except.ok.inj h]

/-- What a call of a loop says of its entry and its pool. -/
structure Due (due : Nat → Nat → Bool) (entries : List (Name × Nat)) (c : ResizeCall) : Prop where
  mem : (c.poolName, c.poolSize) ∈ entries
  due : due (c.currSize / SIZE_CONV) c.poolSize = true
  bounded : c.currSize < 2 ^ 64
  newSize : c.newSize = c.poolSize * SIZE_CONV % 2 ^ 64

theorem Due.cons {entries : List (Name × Nat)} {c : ResizeCall} (h : Due due entries c)
    (e : Name × Nat) : Due due (e :: entries) c :=
  { h with mem := List.mem_cons_of_mem e h.mem }

theorem due_of_mem {entries : List (Name × Nat)} {t : PoolTable} {c : ResizeCall}
    (hc : c ∈ resizeCalls due t entries) : Due due entries c := by
  induction entries generalizing t with
  | nil => cases hc
  | cons e rest ih =>
    obtain ⟨poolName, poolSize⟩ := e
    rw [resizeCalls] at hc
    cases hsize : t.getPoolSizeFromName poolName with
    | error f =>
      rw [hsize] at hc
      cases hc
    | ok currSize =>
      rw [hsize] at hc
      simp only at hc
      split at hc
      · next hdue =>
        obtain rfl | hc := List.mem_cons.mp hc
        · exact ⟨List.mem_cons_self, hdue, size_lt (size_of_getPoolSizeFromName hsize), rfl⟩
        · cases hres : t.resizePool poolName (poolSize * SIZE_CONV % 2 ^ 64) with
          | error f =>
            rw [hres] at hc
            cases hc
          | ok r =>
            rw [hres] at hc
            exact (ih hc).cons _
      · exact (ih hc).cons _

/-- Bytes asked for are the bytes meant exactly if they are less than `2 ^ 64`, that is below
`2 ^ 40` units. -/
theorem mul_mod_eq_iff {n : Nat} : n * SIZE_CONV % 2 ^ 64 = n * SIZE_CONV ↔ n < 2 ^ 40 := by
  unfold SIZE_CONV
  constructor
  · intro h
    have hlt := Nat.mod_lt (n * (16 * 1024 * 1024)) (by decide : 0 < 2 ^ 64)
    omega
  · intro h
    apply Nat.mod_eq_of_lt
    omega

/-- A call of the first loop asks for less than there is, and for what is meant. -/
theorem newSize_of_shrink {entries : List (Name × Nat)} {c : ResizeCall}
    (h : Due (fun currSize poolSize => decide (currSize > poolSize)) entries c) :
    c.newSize < c.currSize ∧ c.newSize = c.poolSize * SIZE_CONV := by
  have hunits : c.poolSize < c.currSize / SIZE_CONV := of_decide_eq_true h.due
  have hbounded := h.bounded
  have hbytes : c.newSize = c.poolSize * SIZE_CONV := by
    rw [h.newSize, mul_mod_eq_iff]
    unfold SIZE_CONV at hunits
    omega
  refine ⟨?_, hbytes⟩
  rw [hbytes]
  unfold SIZE_CONV at hunits ⊢
  omega

/-- A call of the second loop asks for what is meant exactly below `2 ^ 40` units, and then for
more than there is. -/
theorem newSize_of_grow {entries : List (Name × Nat)} {c : ResizeCall}
    (h : Due (fun currSize poolSize => decide (currSize < poolSize)) entries c) :
    c.currSize < c.newSize ∧ c.newSize = c.poolSize * SIZE_CONV ↔ c.poolSize < 2 ^ 40 := by
  have hunits : c.currSize / SIZE_CONV < c.poolSize := of_decide_eq_true h.due
  rw [h.newSize, mul_mod_eq_iff, and_iff_right_iff_imp]
  intro hlt
  rw [mul_mod_eq_iff.mpr hlt]
  unfold SIZE_CONV at hunits ⊢
  omega

/-! ## Reaching a call -/

/-- An entry of no pool makes a loop raise. -/
theorem resizeLoop_of_unregistered (due : Nat → Nat → Bool) {entries : List (Name × Nat)}
    {t : PoolTable} {e : Name × Nat} (he : e ∈ entries) (hnone : t.size e.1 = none) :
    ∃ f, resizeLoop due t entries = .error f := by
  induction entries generalizing t with
  | nil => cases he
  | cons e' rest ih =>
    obtain ⟨poolName, poolSize⟩ := e'
    rw [resizeLoop]
    cases hs : t.size poolName with
    | none => exact ⟨.invalidPool, by rw [getPoolSizeFromName_of_none hs]⟩
    | some s =>
      have hrest : e ∈ rest := by
        obtain rfl | hrest := List.mem_cons.mp he
        · cases hnone.symm.trans hs
        · exact hrest
      rw [getPoolSizeFromName_of_size hs]
      simp only
      split
      · obtain ⟨t', done, hok, -, hsome⟩ := resizePool_keep (poolSize * SIZE_CONV % 2 ^ 64) hs
        have hnone' : t'.size e.1 = none := by
          rw [← Option.not_isSome_iff_eq_none, hsome, hnone]
          exact Bool.false_ne_true
        obtain ⟨f, hf⟩ := ih hrest hnone'
        exact ⟨f, by rw [hok]; simp only [hf, Except.map]⟩
      · exact ih hrest hnone

/-- With all entries registered, an entry that is due at any size is called for. -/
theorem exists_call (due : Nat → Nat → Bool) {entries : List (Name × Nat)} {t : PoolTable}
    (hreg : ∀ e ∈ entries, (t.size e.1).isSome) {e : Name × Nat} (he : e ∈ entries)
    (hdue : ∀ s < 2 ^ 64, due (s / SIZE_CONV) e.2 = true) :
    ∃ c ∈ resizeCalls due t entries, c.poolSize = e.2 := by
  induction entries generalizing t with
  | nil => cases he
  | cons e' rest ih =>
    obtain ⟨poolName, poolSize⟩ := e'
    obtain ⟨s, hs⟩ := Option.isSome_iff_exists.mp (hreg _ List.mem_cons_self)
    obtain ⟨t', done, hok, -, hsome⟩ := resizePool_keep (poolSize * SIZE_CONV % 2 ^ 64) hs
    have hreg' : ∀ e ∈ rest, (t'.size e.1).isSome := fun e he => by
      rw [hsome]
      exact hreg e (List.mem_cons_of_mem _ he)
    rw [resizeCalls, getPoolSizeFromName_of_size hs]
    simp only [hok]
    obtain rfl | he := List.mem_cons.mp he
    · rw [if_pos (hdue s (size_lt hs))]
      exact ⟨_, List.mem_cons_self, rfl⟩
    · split
      · obtain ⟨c, hc, hn⟩ := ih hreg' he
        exact ⟨c, List.mem_cons_of_mem _ hc, hn⟩
      · exact ih (fun e he => hreg e (List.mem_cons_of_mem _ he)) he

/-! ## Both loops -/

/-- The first loop only asks for less than a pool has, the second only for more, and both for
the bytes that are meant. -/
structure RightWay (t : PoolTable) (config : List UInt8) : Prop where
  shrinks : ∀ c ∈ (t.configCalls config).1,
    c.newSize < c.currSize ∧ c.newSize = c.poolSize * SIZE_CONV
  grows : ∀ c ∈ (t.configCalls config).2,
    c.currSize < c.newSize ∧ c.newSize = c.poolSize * SIZE_CONV

/-- Resizing goes the right way exactly if some listed pool is not there, so that the second
loop is not reached, or every listed number of units is below `2 ^ 40`. -/
theorem rightWay_iff (t : PoolTable) (config : List UInt8) :
    RightWay t config ↔ (∃ e ∈ parseConfig config, t.size e.1 = none) ∨
      ∀ e ∈ parseConfig config, e.2 < 2 ^ 40 := by
  have hshrinks : ∀ c ∈ (t.configCalls config).1,
      c.newSize < c.currSize ∧ c.newSize = c.poolSize * SIZE_CONV :=
    fun c hc => newSize_of_shrink (due_of_mem hc)
  by_cases hnone : ∃ e ∈ parseConfig config, t.size e.1 = none
  · obtain ⟨e, he, hsize⟩ := hnone
    obtain ⟨f, hf⟩ := resizeLoop_of_unregistered
      (fun currSize poolSize => decide (currSize > poolSize)) he hsize
    refine iff_of_true ⟨hshrinks, fun c hc => ?_⟩ (.inl ⟨e, he, hsize⟩)
    rw [configCalls, shrinkLoop, hf] at hc
    cases hc
  · have hreg : ∀ e ∈ parseConfig config, (t.size e.1).isSome = true := fun e he =>
      Option.isSome_iff_ne_none.mpr fun h => hnone ⟨e, he, h⟩
    obtain ⟨t', done, hok, -, hsome⟩ := resizeLoop_keep
      (fun currSize poolSize => decide (currSize > poolSize)) hreg
    have hcalls : (t.configCalls config).2 = t'.growCalls (parseConfig config) := by
      rw [configCalls, shrinkLoop, hok]
    rw [or_iff_right hnone]
    constructor
    · intro h e he
      by_contra hwrap
      -- from `2 ^ 40` units on an entry is due whatever the pool has
      have hdue : ∀ s < 2 ^ 64, decide (s / SIZE_CONV < e.2) = true := fun s hs => by
        rw [decide_eq_true_eq]
        unfold SIZE_CONV
        omega
      obtain ⟨c, hc, hn⟩ := exists_call (fun currSize poolSize => decide (currSize < poolSize))
        (fun e he => (hsome e.1).trans (hreg e he)) he hdue
      have hgrow := (newSize_of_grow (due_of_mem hc)).mp (h.grows c (hcalls ▸ hc))
      exact hwrap (hn ▸ hgrow)
    · intro h
      refine ⟨hshrinks, fun c hc => ?_⟩
      rw [hcalls] at hc
      have hdue := due_of_mem hc
      exact (newSize_of_grow hdue).mpr (h _ hdue.mem)

/-- `a` and `b` have 31 MB each, and `a` is to have `2 ^ 40` units: the second loop asks for no
byte at all. -/
theorem not_rightWay_wrapped :
    ¬RightWay twoPools [97, 10, 49, 48, 57, 57, 53, 49, 49, 54, 50, 55, 55, 55, 54] := by
  have hcalls :
      (twoPools.configCalls [97, 10, 49, 48, 57, 57, 53, 49, 49, 54, 50, 55, 55, 55, 54]).2 =
        [⟨[97], 31 * MB_SIZE, 2 ^ 40, 0⟩] := by
    decide +kernel
  intro h
  have hgrow := (h.grows ⟨[97], 31 * MB_SIZE, 2 ^ 40, 0⟩ (by rw [hcalls]; exact .head _)).1
  exact absurd hgrow (Nat.not_lt_zero _)

end PoolTable

end CachelibArchive.Control
