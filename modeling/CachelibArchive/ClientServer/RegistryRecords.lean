import CachelibArchive.ClientServer.RegistryMoves

/-!
# The registry's records

The listener and the registration it handles are in step, each pool's count is the
number of its counted registrations, and the numbers in use are distinct and below the
next one: counting begins at 0 again only when none is in use. So the files of a pool's
sessions differ; for those of different pools it takes a condition on their names.
-/

namespace CachelibArchive.ClientServer.Registry

/-! ## The listener and its registration -/

/-- The registration the listener handles before its thread is spawned, and how far it is. -/
def ListenerPc.stage : ListenerPc → Option (Nat × ThreadPc)
  | .accept => none
  | .find k => some (k, .unregistered)
  | .lock _ k => some (k, .unregistered)
  | .insert k => some (k, .unregistered)
  | .increment k => some (k, .unregistered)
  | .number _ k => some (k, .registered)
  | .unlock _ k => some (k, .numbered)
  | .newCHS k => some (k, .numbered)
  | .adjust k => some (k, .numbered)
  | .spawn k => some (k, .numbered)
  | .send _ => none

theorem stage_rank {l : ListenerPc} {k : Nat} {pc : ThreadPc} (h : l.stage = some (k, pc)) :
    pc.rank ≤ 2 := by
  cases l <;> cases h <;> decide

/-- The listener and the registrations are in step. -/
structure Sync (r : State) : Prop where
  /-- A registration without a thread is the one the listener handles. -/
  stage : ∀ (k : Nat) (s : Registration), r.registrations[k]? = some s → s.thread.rank ≤ 2 →
    r.listener.stage = some (k, s.thread)
  /-- The listener handles a registration that is there. -/
  staged : ∀ k pc, r.listener.stage = some (k, pc) →
    ∃ s : Registration, r.registrations[k]? = some s ∧ s.thread = pc
  /-- The client gets its reply when the thread is spawned. -/
  sending : ∀ k, r.listener = .send k →
    ∃ s : Registration, r.registrations[k]? = some s ∧ 3 ≤ s.thread.rank ∧ s.client = .awaiting
  /-- Until then it waits. -/
  awaiting : ∀ (k : Nat) (s : Registration), r.registrations[k]? = some s → s.thread.rank ≤ 2 →
    s.client = .awaiting

/-- The registration that the listener handles. -/
theorem Sync.thread_eq {r : State} (h : Sync r) {k : Nat} {pc : ThreadPc} {s : Registration}
    (hl : r.listener.stage = some (k, pc)) (hs : r.registrations[k]? = some s) : s.thread = pc := by
  obtain ⟨t, ht, hpc⟩ := h.staged k pc hl
  rw [hs] at ht
  cases ht
  exact hpc

/-- No other registration is without a thread. -/
theorem Sync.eq_of_rank {r : State} (h : Sync r) {k j : Nat} {pc : ThreadPc} {t : Registration}
    (hl : r.listener.stage = some (k, pc)) (ht : r.registrations[j]? = some t)
    (hrank : t.thread.rank ≤ 2) : j = k := by
  have hstage := (h.stage j t ht hrank).symm.trans hl
  cases hstage
  rfl

/-- Moves of the listener alone keep the step. -/
theorem Sync.listener {r : State} (h : Sync r) {l : ListenerPc}
    (hstage : l.stage = r.listener.stage) (hsend : ∀ k, l ≠ .send k) (r' : State)
    (hr : r'.registrations = r.registrations) (hl : r'.listener = l) : Sync r' := by
  refine ⟨?_, ?_, fun k hk => absurd (hl.symm.trans hk) (hsend k), ?_⟩
  · rw [hr, hl, hstage]
    exact h.stage
  · rw [hr, hl, hstage]
    exact h.staged
  · rw [hr]
    exact h.awaiting

/-- The registration the listener handles goes a stage further. -/
theorem Sync.forward {r : State} (h : Sync r) {k : Nat} {pc : ThreadPc} {s s' : Registration}
    (hl : r.listener.stage = some (k, pc)) (hs : r.registrations[k]? = some s)
    (r' : State) (hr : r'.registrations = r.registrations.set k s') (hc : s'.client = s.client)
    (hstage : r'.listener.stage = some (k, s'.thread)) (hsend : ∀ k, r'.listener ≠ .send k) :
    Sync r' := by
  have hawait : s.client = .awaiting := by
    refine h.awaiting k s hs ?_
    rw [h.thread_eq hl hs]
    exact stage_rank hl
  refine ⟨fun j t ht hrank => ?_, fun j pc' hj => ?_, fun j hj => absurd hj (hsend j),
    fun j t ht hrank => ?_⟩
  · rw [hr] at ht
    obtain ⟨rfl, rfl⟩ | ⟨hne, ht⟩ := set_eq_some ht
    · exact hstage
    · exact absurd (h.eq_of_rank hl ht hrank) hne
  · rw [hstage] at hj
    cases hj
    rw [hr]
    exact ⟨s', set_self hs, rfl⟩
  · rw [hr] at ht
    obtain ⟨rfl, rfl⟩ | ⟨hne, ht⟩ := set_eq_some ht
    · exact hc.trans hawait
    · exact absurd (h.eq_of_rank hl ht hrank) hne

/-- A registration with a thread changes without coming back before it. -/
theorem Sync.spawned {r : State} (h : Sync r) {k : Nat} {s s' : Registration}
    (hs : r.registrations[k]? = some s) (hrank : 3 ≤ s.thread.rank) (r' : State)
    (hr : r'.registrations = r.registrations.set k s') (hrank' : 3 ≤ s'.thread.rank)
    (hc : s.client = .awaiting → s'.client = .awaiting) (hl : r'.listener = r.listener) :
    Sync r' := by
  refine ⟨fun j t ht hle => ?_, fun j pc hj => ?_, fun j hj => ?_, fun j t ht hle => ?_⟩
  · rw [hr] at ht
    obtain ⟨rfl, rfl⟩ | ⟨hne, ht⟩ := set_eq_some ht
    · omega
    · rw [hl]
      exact h.stage j t ht hle
  · rw [hl] at hj
    obtain ⟨t, ht, hpc⟩ := h.staged j pc hj
    have hne : j ≠ k := by
      rintro rfl
      rw [hs] at ht
      cases ht
      have hlow := stage_rank hj
      rw [← hpc] at hlow
      omega
    exact ⟨t, by rw [hr]; exact set_ne hne ht, hpc⟩
  · rw [hl] at hj
    obtain ⟨t, ht, htr, htc⟩ := h.sending j hj
    rw [hr]
    by_cases hjk : j = k
    · subst hjk
      rw [hs] at ht
      cases ht
      exact ⟨s', set_self hs, hrank', hc htc⟩
    · exact ⟨t, set_ne hjk ht, htr, htc⟩
  · rw [hr] at ht
    obtain ⟨rfl, rfl⟩ | ⟨hne, ht⟩ := set_eq_some ht
    · omega
    · exact h.awaiting j t ht hle

/-- A new registration is the one the listener handles next. -/
theorem Sync.accept {r : State} (h : Sync r) (hl : r.listener = .accept) {s : Registration}
    (r' : State) (hr : r'.registrations = r.registrations ++ [s])
    (hs : s.thread = .unregistered ∧ s.client = .awaiting)
    (hl' : r'.listener = .find r.registrations.length) : Sync r' := by
  have hnone : ∀ (j : Nat) (t : Registration), r.registrations[j]? = some t →
      ¬ t.thread.rank ≤ 2 := by
    intro j t ht hle
    have hstage := h.stage j t ht hle
    rw [hl] at hstage
    cases hstage
  refine ⟨fun j t ht hle => ?_, fun j pc hj => ?_, fun j hj => ?_, fun j t ht hle => ?_⟩
  · rw [hr] at ht
    obtain ⟨rfl, rfl⟩ | ht := concat_eq_some ht
    · rw [hl', hs.1]
      rfl
    · exact absurd hle (hnone j t ht)
  · rw [hl'] at hj
    cases hj
    rw [hr]
    exact ⟨s, List.getElem?_concat_length, hs.1⟩
  · rw [hl'] at hj
    cases hj
  · rw [hr] at ht
    obtain ⟨rfl, rfl⟩ | ht := concat_eq_some ht
    · exact hs.2
    · exact absurd hle (hnone j t ht)

/-- Spawning its thread, the listener is done with a registration but for the reply. -/
theorem Sync.spawn {r : State} (h : Sync r) {k : Nat} {s s' : Registration}
    (hl : r.listener = .spawn k) (hs : r.registrations[k]? = some s) (r' : State)
    (hr : r'.registrations = r.registrations.set k s') (hthread : s'.thread = .opening .shm)
    (hc : s'.client = s.client) (hl' : r'.listener = .send k) : Sync r' := by
  have hstage : r.listener.stage = some (k, .numbered) := by rw [hl]; rfl
  have hawait := h.awaiting k s hs (by rw [h.thread_eq hstage hs]; decide)
  refine ⟨fun j t ht hle => ?_, fun j pc hj => ?_, fun j hj => ?_, fun j t ht hle => ?_⟩
  · rw [hr] at ht
    obtain ⟨rfl, rfl⟩ | ⟨hne, ht⟩ := set_eq_some ht
    · rw [hthread] at hle
      exact absurd hle (by decide)
    · exact absurd (h.eq_of_rank hstage ht hle) hne
  · rw [hl'] at hj
    cases hj
  · rw [hl'] at hj
    cases hj
    rw [hr]
    exact ⟨s', set_self hs, by rw [hthread]; decide, hc.trans hawait⟩
  · rw [hr] at ht
    obtain ⟨rfl, rfl⟩ | ⟨hne, ht⟩ := set_eq_some ht
    · exact hc.trans hawait
    · exact h.awaiting j t ht hle

/-- With the reply the registration is complete. -/
theorem Sync.send {r : State} (h : Sync r) {k : Nat} {s s' : Registration}
    (hl : r.listener = .send k) (hs : r.registrations[k]? = some s) (r' : State)
    (hr : r'.registrations = r.registrations.set k s') (hthread : s'.thread = s.thread)
    (hl' : r'.listener = .accept) : Sync r' := by
  obtain ⟨t, ht, hrank, -⟩ := h.sending k hl
  rw [hs] at ht
  cases ht
  have hnone : ∀ (j : Nat) (t : Registration), r'.registrations[j]? = some t →
      ¬ t.thread.rank ≤ 2 := by
    intro j t ht hle
    rw [hr] at ht
    obtain ⟨rfl, rfl⟩ | ⟨hne, ht⟩ := set_eq_some ht
    · rw [hthread] at hle
      omega
    · have hstage := h.stage j t ht hle
      rw [hl] at hstage
      cases hstage
  refine ⟨fun j t ht hle => absurd hle (hnone j t ht), fun j pc hj => ?_, fun j hj => ?_,
    fun j t ht hle => absurd hle (hnone j t ht)⟩
  · rw [hl'] at hj
    cases hj
  · rw [hl'] at hj
    cases hj

theorem Sync.move {r r' : State} (h : Sync r)
    (hclient : ∀ (k : Nat) (s : Registration), r.registrations[k]? = some s →
      s.client ≠ .awaiting → 3 ≤ s.thread.rank) (hm : Move r r') : Sync r' := by
  cases hm with
  | idle => exact h
  | exit hs hnamed hpath => exact ⟨h.stage, h.staged, h.sending, h.awaiting⟩
  | accept pool hl => exact h.accept hl _ rfl ⟨rfl, rfl⟩ rfl
  | find hl hs => exact h.listener (l := .lock _ _) (by rw [hl]; rfl) (by simp) _ rfl rfl
  | @lock fresh k hl =>
    cases fresh
    · exact h.listener (l := .increment k) (by rw [hl]; rfl) (by simp) _ rfl rfl
    · exact h.listener (l := .insert k) (by rw [hl]; rfl) (by simp) _ rfl rfl
  | insert hl hs => exact h.forward (by rw [hl]; rfl) hs _ rfl rfl rfl (by simp)
  | increment hl hs => exact h.forward (by rw [hl]; rfl) hs _ rfl rfl rfl (by simp)
  | number hl hs => exact h.forward (by rw [hl]; rfl) hs _ rfl rfl rfl (by simp)
  | @unlock fresh k hl =>
    cases fresh
    · exact h.listener (l := .adjust k) (by rw [hl]; rfl) (by simp) _ rfl rfl
    · exact h.listener (l := .newCHS k) (by rw [hl]; rfl) (by simp) _ rfl rfl
  | newCHS hl hs => exact h.listener (l := .adjust _) (by rw [hl]; rfl) (by simp) _ rfl rfl
  | adjust hl hs hc => exact h.listener (l := .spawn _) (by rw [hl]; rfl) (by simp) _ rfl rfl
  | spawn hl hs hc => exact h.spawn hl hs _ rfl rfl rfl rfl
  | send pid hl hs => exact h.send hl hs _ rfl rfl rfl
  | thread hs hrank hdone effect =>
    exact h.spawned hs hrank _ rfl (by rw [ThreadPc.rank_next hdone]; omega) id rfl
  | attach hs pc bound =>
    have hrank := hclient _ _ hs (by simp [pc])
    exact h.spawned hs hrank _ rfl hrank (by simp [pc]) rfl
  | destroy hs pc =>
    have hrank := hclient _ _ hs (by simp [pc])
    exact h.spawned hs hrank _ rfl hrank (by simp [pc]) rfl

/-! ## Counts and numbers -/

/-- Number of registrations counted for a pool. -/
def State.counted (r : State) (pool : Name) : Nat :=
  r.registrations.countP fun s => decide (s.pool = pool ∧ s.thread.Counted)

/-- What `poolRecord` says of the registrations. -/
structure Records (r : State) : Prop where
  /-- The first component counts them. -/
  count : ∀ pool, (r.record pool).1 = r.counted pool
  /-- About to begin at 0 again, the pool has none. -/
  fresh : ∀ (k : Nat) (s : Registration), r.listener = .lock true k ∨ r.listener = .insert k →
    r.registrations[k]? = some s → r.counted s.pool = 0
  /-- About to count on, the pool has a record. -/
  old : ∀ (k : Nat) (s : Registration), r.listener = .lock false k ∨ r.listener = .increment k →
    r.registrations[k]? = some s → (r.poolRecord s.pool).isSome = true
  /-- A counted registration's pool has a record. -/
  known : ∀ (k : Nat) (s : Registration), r.registrations[k]? = some s → s.thread.Counted →
    (r.poolRecord s.pool).isSome = true
  /-- Numbers in use are below the next one. -/
  below : ∀ (k : Nat) (s : Registration), r.registrations[k]? = some s → s.thread.Numbered →
    s.no < (r.record s.pool).2
  /-- Numbers in use are distinct. -/
  unique : ∀ (k l : Nat) (s t : Registration), k ≠ l → r.registrations[k]? = some s →
    r.registrations[l]? = some t → s.thread.Numbered → t.thread.Numbered → s.pool = t.pool →
    s.no ≠ t.no

theorem ThreadPc.Numbered.counted {pc : ThreadPc} (h : pc.Numbered) : pc.Counted :=
  ⟨by have := h.1; omega, h.2⟩

/-- Replacing a registration moves the counts by what it is counted for. -/
theorem counted_set {r r' : State} {k : Nat} {s s' : Registration}
    (hs : r.registrations[k]? = some s) (hr : r'.registrations = r.registrations.set k s')
    (pool : Name) :
    r'.counted pool + (if s.pool = pool ∧ s.thread.Counted then 1 else 0) =
      r.counted pool + if s'.pool = pool ∧ s'.thread.Counted then 1 else 0 := by
  obtain ⟨hlt, heq⟩ := List.getElem?_eq_some_iff.mp hs
  have hpos : (if s.pool = pool ∧ s.thread.Counted then 1 else 0) ≤ r.counted pool := by
    split_ifs with hc
    · exact List.countP_pos_iff.mpr ⟨s, List.mem_of_getElem? hs, by simpa using hc⟩
    · exact Nat.zero_le _
  have hset := List.countP_set (p := fun s => decide (s.pool = pool ∧ s.thread.Counted))
    (a := s') hlt
  simp only [heq, decide_eq_true_eq] at hset
  unfold State.counted at hpos ⊢
  rw [hr, hset]
  omega

theorem counted_set_of_iff {r r' : State} {k : Nat} {s s' : Registration}
    (hs : r.registrations[k]? = some s) (hr : r'.registrations = r.registrations.set k s')
    (hpool : s'.pool = s.pool) (hc : s'.thread.Counted ↔ s.thread.Counted) (pool : Name) :
    r'.counted pool = r.counted pool := by
  have h := counted_set hs hr pool
  simp only [hpool, hc] at h
  omega

/-- A pool with nothing counted has no counted registration. -/
theorem not_counted_of_zero {r : State} {k : Nat} {s : Registration}
    (h : r.counted s.pool = 0) (hs : r.registrations[k]? = some s) : ¬ s.thread.Counted := by
  intro hc
  have hnone := List.countP_eq_zero.mp h s (List.mem_of_getElem? hs)
  simp [hc] at hnone

theorem record_update (r r' : State) {pool : Name} {p : Int × Nat}
    (h : r'.poolRecord = Function.update r.poolRecord pool (some p)) (pool' : Name) :
    r'.record pool' = if pool' = pool then p else r.record pool' := by
  unfold State.record
  rw [h, Function.update_apply]
  split_ifs <;> rfl

theorem isSome_update {f : Name → Option (Int × Nat)} {pool pool' : Name} {p : Int × Nat}
    (h : (f pool').isSome = true) : (Function.update f pool (some p) pool').isSome = true := by
  rw [Function.update_apply]
  split_ifs
  · rfl
  · exact h

/-- Writing the record of a registration's pool leaves no counted registration without one. -/
theorem Records.known_update {r : State} (h : Records r) {k : Nat} {s s' : Registration}
    {p : Int × Nat} (r' : State) (hr : r'.registrations = r.registrations.set k s')
    (hrec : r'.poolRecord = Function.update r.poolRecord s.pool (some p))
    (hpool : s'.pool = s.pool) (j : Nat) (t : Registration) (ht : r'.registrations[j]? = some t)
    (hc : t.thread.Counted) : (r'.poolRecord t.pool).isSome = true := by
  rw [hr] at ht
  rw [hrec]
  obtain ⟨rfl, rfl⟩ | ⟨-, ht⟩ := set_eq_some ht
  · rw [hpool, Function.update_self]
    rfl
  · exact isSome_update (h.known j t ht hc)

/-- Moves of the listener that leave records and registrations alone. -/
theorem Records.listener {r : State} (h : Records r) (r' : State)
    (hrec : r'.poolRecord = r.poolRecord) (hr : r'.registrations = r.registrations)
    (hfresh : ∀ k, r'.listener = .lock true k ∨ r'.listener = .insert k →
      r.listener = .lock true k ∨ r.listener = .insert k)
    (hold : ∀ k, r'.listener = .lock false k ∨ r'.listener = .increment k →
      r.listener = .lock false k ∨ r.listener = .increment k) : Records r' := by
  have hrecord : ∀ pool, r'.record pool = r.record pool := fun pool => by
    rw [State.record, hrec, ← State.record]
  have hcounted : ∀ pool, r'.counted pool = r.counted pool := fun pool => by
    rw [State.counted, hr, ← State.counted]
  refine ⟨fun pool => ?_, fun k s hl hs => ?_, fun k s hl hs => ?_, ?_, fun k s hs => ?_, ?_⟩
  · rw [hrecord, hcounted, h.count]
  · rw [hcounted]
    exact h.fresh k s (hfresh k hl) (hr ▸ hs)
  · rw [hrec]
    exact h.old k s (hold k hl) (hr ▸ hs)
  · rw [hr, hrec]
    exact h.known
  · rw [hrecord]
    exact h.below k s (hr ▸ hs)
  · rw [hr]
    exact h.unique

/-- A registration goes on, counted and numbered as before. -/
theorem Records.put {r : State} (h : Records r) {k : Nat} {s s' : Registration}
    (hs : r.registrations[k]? = some s) (r' : State)
    (hr : r'.registrations = r.registrations.set k s') (hrec : r'.poolRecord = r.poolRecord)
    (hpool : s'.pool = s.pool) (hno : s'.no = s.no)
    (hcount : s'.thread.Counted ↔ s.thread.Counted)
    (hnum : s'.thread.Numbered → s.thread.Numbered)
    (hfresh : ∀ k, r'.listener = .lock true k ∨ r'.listener = .insert k →
      r.listener = .lock true k ∨ r.listener = .insert k)
    (hold : ∀ k, r'.listener = .lock false k ∨ r'.listener = .increment k →
      r.listener = .lock false k ∨ r.listener = .increment k) : Records r' := by
  have hrecord : ∀ pool, r'.record pool = r.record pool := fun pool => by
    rw [State.record, hrec, ← State.record]
  have hcounted := counted_set_of_iff hs hr hpool hcount
  -- each registration is one from before, up to what does not matter here
  have hback : ∀ (j : Nat) (t : Registration), r'.registrations[j]? = some t →
      ∃ u, r.registrations[j]? = some u ∧ u.pool = t.pool ∧ u.no = t.no ∧
        (t.thread.Counted → u.thread.Counted) ∧ (t.thread.Numbered → u.thread.Numbered) := by
    intro j t ht
    rw [hr] at ht
    obtain ⟨rfl, rfl⟩ | ⟨-, ht⟩ := set_eq_some ht
    · exact ⟨s, hs, hpool.symm, hno.symm, hcount.mp, hnum⟩
    · exact ⟨t, ht, rfl, rfl, id, id⟩
  refine ⟨fun pool => ?_, fun j t hl ht => ?_, fun j t hl ht => ?_, fun j t ht hc => ?_,
    fun j t ht hn => ?_, fun i j t v hij ht hv htn hvn htv => ?_⟩
  · rw [hrecord, hcounted, h.count]
  · obtain ⟨u, hu, hup, -⟩ := hback j t ht
    rw [hcounted, ← hup]
    exact h.fresh j u (hfresh j hl) hu
  · obtain ⟨u, hu, hup, -⟩ := hback j t ht
    rw [hrec, ← hup]
    exact h.old j u (hold j hl) hu
  · obtain ⟨u, hu, hup, -, huc, -⟩ := hback j t ht
    rw [hrec, ← hup]
    exact h.known j u hu (huc hc)
  · obtain ⟨u, hu, hup, hun, -, hum⟩ := hback j t ht
    rw [hrecord, ← hup, ← hun]
    exact h.below j u hu (hum hn)
  · obtain ⟨u, hu, hup, hun, -, hum⟩ := hback i t ht
    obtain ⟨x, hx, hxp, hxn, -, hxm⟩ := hback j v hv
    rw [← hun, ← hxn]
    exact h.unique i j u x hij hu hx (hum htn) (hxm hvn) (by rw [hup, hxp, htv])

/-- Adding a registration that is not counted. -/
theorem Records.accept {r : State} (h : Records r) {s : Registration} (r' : State)
    (hr : r'.registrations = r.registrations ++ [s]) (hrec : r'.poolRecord = r.poolRecord)
    (hs : s.thread = .unregistered) (hl : ∃ k, r'.listener = .find k) : Records r' := by
  obtain ⟨k, hl⟩ := hl
  have hrecord : ∀ pool, r'.record pool = r.record pool := fun pool => by
    rw [State.record, hrec, ← State.record]
  have hlow : ¬ s.thread.Counted := by
    rw [hs]
    decide
  have hcounted : ∀ pool, r'.counted pool = r.counted pool := fun pool => by
    rw [State.counted, hr, List.countP_append]
    simp [hlow, State.counted]
  have hold : ∀ (j : Nat) (t : Registration), r'.registrations[j]? = some t →
      t.thread.Counted → r.registrations[j]? = some t := by
    intro j t ht hc
    rw [hr] at ht
    obtain ⟨rfl, rfl⟩ | ht := concat_eq_some ht
    · exact absurd hc hlow
    · exact ht
  refine ⟨fun pool => ?_, fun j t hj ht => ?_, fun j t hj ht => ?_, fun j t ht hc => ?_,
    fun j t ht hn => ?_, fun i j t v hij ht hv htn hvn => ?_⟩
  · rw [hrecord, hcounted, h.count]
  · rw [hl] at hj
    simp at hj
  · rw [hl] at hj
    simp at hj
  · rw [hrec]
    exact h.known j t (hold j t ht hc) hc
  · rw [hrecord]
    exact h.below j t (hold j t ht hn.counted) hn
  · exact h.unique i j t v hij (hold i t ht htn.counted) (hold j v hv hvn.counted) htn hvn

/-- Taking a registration into its pool's count. -/
theorem Records.register {r : State} (h : Records r) {k : Nat} {s s' : Registration}
    {p : Int × Nat} (hs : r.registrations[k]? = some s) (r' : State)
    (hr : r'.registrations = r.registrations.set k s')
    (hrec : r'.poolRecord = Function.update r.poolRecord s.pool (some p))
    (hpool : s'.pool = s.pool) (hthread : s.thread = .unregistered)
    (hthread' : s'.thread = .registered) (hcount : p.1 = r.counted s.pool + 1)
    (hbelow : ∀ (j : Nat) (t : Registration), r.registrations[j]? = some t →
      t.thread.Numbered → t.pool = s.pool → t.no < p.2)
    (hl : ∃ fresh j, r'.listener = .number fresh j) : Records r' := by
  obtain ⟨fresh, i, hl⟩ := hl
  have hrecord := record_update r r' hrec
  have hnum : ∀ (j : Nat) (t : Registration), r'.registrations[j]? = some t →
      t.thread.Numbered → r.registrations[j]? = some t := by
    intro j t ht hn
    rw [hr] at ht
    obtain ⟨rfl, rfl⟩ | ⟨-, ht⟩ := set_eq_some ht
    · rw [hthread'] at hn
      exact absurd hn.1 (by decide)
    · exact ht
  refine ⟨fun pool => ?_, fun j t hj ht => ?_, fun j t hj ht => ?_, fun j t ht hc => ?_,
    fun j t ht hn => ?_, fun i j t v hij ht hv htn hvn => ?_⟩
  · have hset := counted_set hs hr pool
    simp only [hpool, hthread, hthread', show ¬ ThreadPc.unregistered.Counted by decide,
      show ThreadPc.registered.Counted by decide, and_false, and_true, if_false] at hset
    rw [hrecord]
    by_cases hp : pool = s.pool
    · subst hp
      rw [if_pos rfl] at hset ⊢
      rw [hcount]
      omega
    · rw [if_neg (Ne.symm hp)] at hset
      rw [if_neg hp, h.count]
      omega
  · rw [hl] at hj
    simp at hj
  · rw [hl] at hj
    simp at hj
  · exact h.known_update r' hr hrec hpool j t ht hc
  · have ht' := hnum j t ht hn
    rw [hrecord]
    split_ifs with hp
    · exact hbelow j t ht' hn hp
    · exact h.below j t ht' hn
  · exact h.unique i j t v hij (hnum i t ht htn) (hnum j v hv hvn) htn hvn

/-- Numbering a registration takes the next number of its pool. -/
theorem Records.number {r : State} (h : Records r) {k : Nat} {s s' : Registration}
    (hs : r.registrations[k]? = some s) (r' : State)
    (hr : r'.registrations = r.registrations.set k s')
    (hrec : r'.poolRecord = Function.update r.poolRecord s.pool
      (some ((r.record s.pool).1, (r.record s.pool).2 + 1)))
    (hpool : s'.pool = s.pool) (hno : s'.no = (r.record s.pool).2)
    (hthread : s.thread = .registered) (hthread' : s'.thread = .numbered)
    (hl : ∃ fresh j, r'.listener = .unlock fresh j) : Records r' := by
  obtain ⟨fresh, i, hl⟩ := hl
  have hrecord := record_update r r' hrec
  have hcounted := counted_set_of_iff hs hr hpool (by rw [hthread, hthread']; decide)
  refine ⟨fun pool => ?_, fun j t hj ht => ?_, fun j t hj ht => ?_, fun j t ht hc => ?_,
    fun j t ht hn => ?_, fun i j t v hij ht hv htn hvn htv => ?_⟩
  · rw [hrecord, hcounted]
    split_ifs with hp
    · rw [hp]
      exact h.count s.pool
    · exact h.count pool
  · rw [hl] at hj
    simp at hj
  · rw [hl] at hj
    simp at hj
  · exact h.known_update r' hr hrec hpool j t ht hc
  · rw [hr] at ht
    rw [hrecord]
    obtain ⟨rfl, rfl⟩ | ⟨-, ht⟩ := set_eq_some ht
    · rw [if_pos hpool, hno]
      exact Nat.lt_succ_self _
    · have hlt := h.below j t ht hn
      split_ifs with hp
      · rw [hp] at hlt
        exact Nat.lt_succ_of_lt hlt
      · exact hlt
  · -- the new number is above all others of the pool
    have hfresh : ∀ (j : Nat) (t : Registration), r.registrations[j]? = some t →
        t.thread.Numbered → t.pool = s.pool → t.no ≠ s'.no := by
      intro j t ht hn hp
      have hlt := h.below j t ht hn
      rw [hp, ← hno] at hlt
      omega
    rw [hr] at ht hv
    obtain ⟨rfl, rfl⟩ | ⟨-, ht'⟩ := set_eq_some ht
    · obtain ⟨rfl, rfl⟩ | ⟨-, hv'⟩ := set_eq_some hv
      · exact absurd rfl hij
      · exact (hfresh j v hv' hvn (htv.symm.trans hpool)).symm
    · obtain ⟨rfl, rfl⟩ | ⟨-, hv'⟩ := set_eq_some hv
      · exact hfresh i t ht' htn (htv.trans hpool)
      · exact h.unique i j t v hij ht' hv' htn hvn htv

/-- A thread takes itself off its pool's count. -/
theorem Records.decrement {r : State} (h : Records r) {k : Nat} {s s' : Registration}
    (hs : r.registrations[k]? = some s) (r' : State)
    (hr : r'.registrations = r.registrations.set k s')
    (hrec : r'.poolRecord = Function.update r.poolRecord s.pool
      (some ((r.record s.pool).1 - 1, (r.record s.pool).2)))
    (hpool : s'.pool = s.pool) (hno : s'.no = s.no) (hthread : s.thread = .decrementing)
    (hthread' : s'.thread = .unlocking) (hl : r'.listener = r.listener) : Records r' := by
  have hrecord := record_update r r' hrec
  have hset := counted_set hs hr
  simp only [hpool, hthread, hthread', show ¬ ThreadPc.unlocking.Counted by decide,
    show ThreadPc.decrementing.Counted by decide, and_false, and_true, if_false] at hset
  have hback : ∀ (j : Nat) (t : Registration), r'.registrations[j]? = some t →
      t.thread.Counted → r.registrations[j]? = some t := by
    intro j t ht hc
    rw [hr] at ht
    obtain ⟨rfl, rfl⟩ | ⟨-, ht⟩ := set_eq_some ht
    · rw [hthread'] at hc
      exact absurd hc.2 (by decide)
    · exact ht
  have hpools : ∀ (j : Nat) (t : Registration), r'.registrations[j]? = some t →
      ∃ u, r.registrations[j]? = some u ∧ u.pool = t.pool := by
    intro j t ht
    rw [hr] at ht
    obtain ⟨rfl, rfl⟩ | ⟨-, ht⟩ := set_eq_some ht
    · exact ⟨s, hs, hpool.symm⟩
    · exact ⟨t, ht, rfl⟩
  refine ⟨fun pool => ?_, fun j t hj ht => ?_, fun j t hj ht => ?_, fun j t ht hc => ?_,
    fun j t ht hn => ?_, fun i j t v hij ht hv htn hvn => ?_⟩
  · have hsetp := hset pool
    rw [hrecord]
    by_cases hp : pool = s.pool
    · subst hp
      rw [if_pos rfl] at hsetp ⊢
      have hcount := h.count s.pool
      dsimp only
      omega
    · rw [if_neg (Ne.symm hp)] at hsetp
      rw [if_neg hp, h.count]
      omega
  · obtain ⟨u, hu, hup⟩ := hpools j t ht
    have hzero := h.fresh j u (hl ▸ hj) hu
    have hsetp := hset t.pool
    rw [hup] at hzero
    omega
  · obtain ⟨u, hu, hup⟩ := hpools j t ht
    rw [hrec, ← hup]
    exact isSome_update (h.old j u (hl ▸ hj) hu)
  · exact h.known_update r' hr hrec hpool j t ht hc
  · have hlt := h.below j t (hback j t ht hn.counted) hn
    rw [hrecord]
    split_ifs with hp
    · rw [hp] at hlt
      exact hlt
    · exact hlt
  · exact h.unique i j t v hij (hback i t ht htn.counted) (hback j v hv hvn.counted) htn hvn

theorem ThreadPc.eq_decrementing {pc : ThreadPc} (h : pc.rank = 14) : pc = .decrementing := by
  cases pc with
  | opening kind => cases kind <;> cases h
  | unlinking kind => cases kind <;> cases h
  | decrementing => rfl
  | _ => cases h

/-- A spawned thread stays counted until it takes itself off. -/
theorem ThreadPc.counted_next {pc : ThreadPc} (hrank : 3 ≤ pc.rank) (hdone : pc ≠ .done)
    (hdec : pc ≠ .decrementing) : pc.next.Counted ↔ pc.Counted := by
  have hne : pc.rank ≠ 14 := fun h => hdec (eq_decrementing h)
  rw [Counted, Counted, rank_next hdone]
  omega

theorem ThreadPc.numbered_of_next {pc : ThreadPc} (hrank : 3 ≤ pc.rank) (hdone : pc ≠ .done)
    (h : pc.next.Numbered) : pc.Numbered := by
  rw [Numbered, rank_next hdone] at h
  exact ⟨by omega, by omega⟩

/-- Except in taking the thread off the count, a statement leaves the records alone. -/
theorem ThreadEffect.record_eq {r : State} {s : Registration} {handle : Kind → Nat}
    {kernel : Kernel} {record : Name → Option (Int × Nat)} {locked : Bool}
    (h : ThreadEffect r s handle kernel record locked) (hdec : s.thread ≠ .decrementing) :
    record = r.poolRecord := by
  cases h with
  | decrementing pc hchs => exact absurd pc hdec
  | _ => rfl

/-- In taking the thread off the count, a statement changes the record of its statistics' pool
and nothing else. -/
theorem ThreadEffect.of_decrementing {r : State} {s : Registration} {handle : Kind → Nat}
    {kernel : Kernel} {record : Name → Option (Int × Nat)} {locked : Bool}
    (h : ThreadEffect r s handle kernel record locked) (hdec : s.thread = .decrementing) :
    ∃ chs, r.chs[s.chs]? = some chs ∧
      record = Function.update r.poolRecord chs.poolName
        (some ((r.record chs.poolName).1 - 1, (r.record chs.poolName).2)) := by
  cases h with
  | decrementing pc hchs => exact ⟨_, hchs, rfl⟩
  | opening pc hpath => simp [pc] at hdec
  | refused pc hkind hpath => simp [pc] at hdec
  | ftruncate pc => simp [pc] at hdec
  | serving pc closing => simp [pc] at hdec
  | unlinking pc => simp [pc] at hdec
  | locking pc => simp [pc] at hdec
  | unlocking pc => simp [pc] at hdec

theorem looksFresh_iff {r : State} {pool : Name} (h : r.looksFresh pool = true) :
    (r.record pool).1 = 0 := by
  unfold State.looksFresh at h
  unfold State.record
  cases hp : r.poolRecord pool with
  | none => rfl
  | some p => simpa [hp] using h

theorem isSome_of_not_looksFresh {r : State} {pool : Name} (h : r.looksFresh pool = false) :
    (r.poolRecord pool).isSome = true := by
  unfold State.looksFresh at h
  cases hp : r.poolRecord pool with
  | none => simp [hp] at h
  | some p => rfl

/-- Every move keeps the records true of the registrations. -/
theorem Records.move {r r' : State} (h : Records r) (hsync : Sync r)
    (hpool : ∀ (k : Nat) (s : Registration) (chs : CacheHitStatistics),
      r.registrations[k]? = some s → 3 ≤ s.thread.rank → r.chs[s.chs]? = some chs →
      chs.poolName = s.pool) (hm : Move r r') : Records r' := by
  cases hm with
  | idle => exact h
  | exit hs hnamed hpath => exact ⟨h.count, h.fresh, h.old, h.known, h.below, h.unique⟩
  | accept pool hl => exact h.accept _ rfl rfl rfl ⟨_, rfl⟩
  | @find k s hl hs =>
    refine ⟨h.count, fun j t hj ht => ?_, fun j t hj ht => ?_, h.known, h.below, h.unique⟩
    · simp only [ListenerPc.lock.injEq, reduceCtorEq, or_false] at hj
      obtain ⟨hfresh, rfl⟩ := hj
      obtain rfl := Option.some.inj (ht.symm.trans hs)
      exact Int.ofNat_eq_zero.mp ((h.count t.pool).symm.trans (looksFresh_iff hfresh))
    · simp only [ListenerPc.lock.injEq, reduceCtorEq, or_false] at hj
      obtain ⟨hfresh, rfl⟩ := hj
      obtain rfl := Option.some.inj (ht.symm.trans hs)
      exact isSome_of_not_looksFresh hfresh
  | @lock fresh k hl =>
    refine h.listener _ rfl rfl (fun j hj => ?_) fun j hj => ?_ <;> cases fresh <;> simp at hj <;>
      simp [hl, hj]
  | @insert k s hl hs =>
    have hthread := hsync.thread_eq (by rw [hl]; rfl) hs
    have hzero := h.fresh k s (.inr hl) hs
    refine h.register hs _ rfl rfl rfl hthread rfl (by simp [hzero]) ?_ ⟨_, _, rfl⟩
    intro j t ht hn hp
    exact absurd hn.counted (not_counted_of_zero (hp ▸ hzero) ht)
  | @increment k s hl hs =>
    have hthread := hsync.thread_eq (by rw [hl]; rfl) hs
    refine h.register hs _ rfl rfl rfl hthread rfl (by rw [h.count]) ?_ ⟨_, _, rfl⟩
    intro j t ht hn hp
    exact hp ▸ h.below j t ht hn
  | @number fresh k s hl hs =>
    have hthread := hsync.thread_eq (by rw [hl]; rfl) hs
    exact h.number hs _ rfl rfl rfl rfl hthread rfl ⟨_, _, rfl⟩
  | @unlock fresh k hl =>
    refine h.listener _ rfl rfl (fun j hj => ?_) fun j hj => ?_ <;> cases fresh <;> simp at hj
  | newCHS hl hs =>
    exact h.listener _ rfl rfl (fun j hj => by simp at hj) fun j hj => by simp at hj
  | adjust hl hs hc =>
    exact h.listener _ rfl rfl (fun j hj => by simp at hj) fun j hj => by simp at hj
  | @spawn k c s hl hs hc =>
    have hthread := hsync.thread_eq (by rw [hl]; rfl) hs
    have hcounted : (ThreadPc.opening .shm).Counted ↔ s.thread.Counted := by
      rw [hthread]
      decide
    have hnumbered : s.thread.Numbered := by
      rw [hthread]
      decide
    exact h.put hs _ rfl rfl rfl rfl hcounted (fun _ => hnumbered) (fun j hj => by simp at hj)
      fun j hj => by simp at hj
  | send pid hl hs =>
    exact h.put hs _ rfl rfl rfl rfl Iff.rfl id (fun j hj => by simp at hj)
      fun j hj => by simp at hj
  | @thread k s handle kernel record locked hs hrank hdone effect =>
    by_cases hdec : s.thread = .decrementing
    · obtain ⟨chs, hchs, rfl⟩ := effect.of_decrementing hdec
      rw [hpool k s chs hs hrank hchs]
      exact h.decrement hs _ rfl rfl rfl rfl hdec (by rw [hdec]; rfl) rfl
    · obtain rfl := effect.record_eq hdec
      exact h.put hs _ rfl rfl rfl rfl (ThreadPc.counted_next hrank hdone hdec)
        (ThreadPc.numbered_of_next hrank hdone) (fun _ => id) fun _ => id
  | attach hs pc bound => exact h.put hs _ rfl rfl rfl rfl Iff.rfl id (fun _ => id) fun _ => id
  | destroy hs pc => exact h.put hs _ rfl rfl rfl rfl Iff.rfl id (fun _ => id) fun _ => id

/-! ## Files -/

/-- A session that gets its number has no file in common with a session of another pool that is
not yet unlinked. -/
def State.Clear (r : State) (l : Label) : Prop :=
  ∀ s ∈ r.numbering l, ∀ t ∈ r.registrations, t.thread.Named → t.pool ≠ s.pool →
    ∀ path ∈ files s.name, path ∉ files t.name

instance (r : State) (l : Label) : Decidable (r.Clear l) :=
  inferInstanceAs (Decidable (∀ s ∈ r.numbering l, ∀ t ∈ r.registrations, t.thread.Named →
    t.pool ≠ s.pool → ∀ path ∈ files s.name, path ∉ files t.name))

/-- Sessions that are not yet unlinked have no file in common. -/
def Apart (r : State) : Prop :=
  ∀ (k l : Nat) (s t : Registration) (kind kind' : Kind) (path : Name), k ≠ l →
    r.registrations[k]? = some s → r.registrations[l]? = some t → s.thread.Named →
    t.thread.Named → kind.path s.name = some path → kind'.path t.name ≠ some path

/-- The listener moves in its own steps, unless it accepts. -/
theorem State.listener_of_step {r r' : State} {l : Label} (hstep : r.step l = some r') :
    r'.listener = r.listener ∨ (∃ pool, l = .accept pool ∧ r.listener = .accept) ∨
      ∃ pid, l = .listener pid ∧ r.listener ≠ .accept := by
  cases l with
  | listener pid =>
    refine .inr (.inr ⟨pid, rfl, fun hl => ?_⟩)
    simp [State.step, listenerStep, hl] at hstep
  | accept pool =>
    refine .inr (.inl ⟨pool, rfl, ?_⟩)
    simp only [State.step, acceptStep] at hstep
    split_ifs at hstep
    split at hstep
    · assumption
    · cases hstep
  | thread k =>
    left
    simp only [State.step] at hstep
    split_ifs at hstep
    obtain ⟨s, hs, hstep⟩ := Option.bind_eq_some_iff.mp hstep
    unfold threadStep at hstep
    split at hstep <;> try cases hstep
    · split at hstep
      · cases hstep
        rfl
      · split_ifs at hstep <;>
          · cases hstep
            rfl
    · rfl
    · split_ifs at hstep <;>
        · cases hstep
          rfl
    · rfl
    · split_ifs at hstep <;>
        · cases hstep
          rfl
    · obtain ⟨chs, -, rfl⟩ := Option.map_eq_some_iff.mp hstep
      rfl
    · rfl
  | client k =>
    left
    obtain ⟨s, hs, hstep⟩ := Option.bind_eq_some_iff.mp hstep
    unfold clientStep at hstep
    split at hstep <;> try cases hstep
    · split at hstep <;>
        · cases hstep
          rfl
    · rfl

/-- A new number keeps the sessions of its own pool apart, and the others are clear of it. -/
theorem Apart.number {r : State} (h : Apart r) (hrecords : Records r) {k : Nat}
    {s s' : Registration} (r' : State) (hr : r'.registrations = r.registrations.set k s')
    (hpool : s'.pool = s.pool) (hno : s'.no = (r.record s.pool).2)
    (hclear : ∀ t ∈ r.registrations, t.thread.Named → t.pool ≠ s.pool →
      ∀ path ∈ files s'.name, path ∉ files t.name) : Apart r' := by
  have hfresh : ∀ (j : Nat) (t : Registration), r.registrations[j]? = some t → t.thread.Named →
      ∀ (kind kind' : Kind) (path : Name), kind.path s'.name = some path →
        kind'.path t.name ≠ some path := by
    intro j t ht hn kind kind' path hs' ht'
    by_cases hp : t.pool = s.pool
    · obtain ⟨-, heq⟩ := path_inj (hpool.trans hp.symm) hs' ht'
      have hlt := hrecords.below j t ht hn.numbered
      rw [hp, ← hno, heq] at hlt
      exact Nat.lt_irrefl _ hlt
    · exact hclear t (List.mem_of_getElem? ht) hn hp path (mem_files.mpr ⟨kind, hs'⟩)
        (mem_files.mpr ⟨kind', ht'⟩)
  intro i j t v kind kind' path hij ht hv htn hvn htp
  rw [hr] at ht hv
  obtain ⟨rfl, rfl⟩ | ⟨-, ht'⟩ := set_eq_some ht
  · obtain ⟨rfl, rfl⟩ | ⟨-, hv'⟩ := set_eq_some hv
    · exact absurd rfl hij
    · exact hfresh j v hv' hvn kind kind' path htp
  · obtain ⟨rfl, rfl⟩ | ⟨-, hv'⟩ := set_eq_some hv
    · exact fun hvp => hfresh i t ht' htn kind' kind path hvp htp
    · exact h i j t v kind kind' path hij ht' hv' htn hvn htp

theorem ThreadPc.named_of_next {pc : ThreadPc} (hrank : 3 ≤ pc.rank) (hdone : pc ≠ .done)
    (h : pc.next.Named) : pc.Named := by
  rw [Named, rank_next hdone] at h
  exact ⟨by omega, by omega⟩

/-- A session that is not yet unlinked was one before, or it is the one that gets its number. -/
theorem State.named_of_step {r r' : State} {l : Label} (hsync : Sync r)
    (hstep : r.step l = some r') :
    (∀ (j : Nat) (t : Registration), r'.registrations[j]? = some t → t.thread.Named →
      ∃ u, r.registrations[j]? = some u ∧ u.name = t.name ∧ u.thread.Named) ∨
    ∃ (k : Nat) (s : Registration), r.registrations[k]? = some s ∧
      r.numbering l = some { s with no := (r.record s.pool).2 } ∧
      r'.registrations =
        r.registrations.set k { s with no := (r.record s.pool).2, thread := .numbered } := by
  have hput : ∀ {k : Nat} {s s' : Registration}, r.registrations[k]? = some s →
      (s'.thread.Named → s.name = s'.name ∧ s.thread.Named) →
      ∀ (j : Nat) (t : Registration), (r.registrations.set k s')[j]? = some t → t.thread.Named →
        ∃ u, r.registrations[j]? = some u ∧ u.name = t.name ∧ u.thread.Named := by
    intro k s s' hs hnamed j t ht hn
    obtain ⟨rfl, rfl⟩ | ⟨-, ht⟩ := set_eq_some ht
    · exact ⟨s, hs, hnamed hn⟩
    · exact ⟨t, ht, rfl, hn⟩
  have hsame : ∀ (j : Nat) (t : Registration), r.registrations[j]? = some t → t.thread.Named →
      ∃ u, r.registrations[j]? = some u ∧ u.name = t.name ∧ u.thread.Named :=
    fun j t ht hn => ⟨t, ht, rfl, hn⟩
  have hlow : ∀ {pc : ThreadPc}, pc.rank ≤ 1 → ¬ pc.Named := fun hle hn => absurd hn.1 (by omega)
  cases move_of_step hstep with
  | idle => exact .inl hsame
  | exit hs hnamed hpath => exact .inl hsame
  | accept pool hl =>
    refine .inl fun j t ht hn => ?_
    obtain ⟨-, rfl⟩ | ht := concat_eq_some ht
    · exact absurd hn (hlow (by decide : ThreadPc.unregistered.rank ≤ 1))
    · exact ⟨t, ht, rfl, hn⟩
  | find hl hs | lock hl | unlock hl | newCHS hl hs | adjust hl hs hc => exact .inl hsame
  | insert hl hs | increment hl hs =>
    exact .inl (hput hs fun hn => absurd hn (hlow (by decide : ThreadPc.registered.rank ≤ 1)))
  | @number fresh k s hl hs =>
    right
    obtain hstay | ⟨-, -, haccept⟩ | ⟨pid, rfl, -⟩ := listener_of_step hstep
    · cases hl.symm.trans hstay.symm
    · cases hl.symm.trans haccept
    · exact ⟨k, s, hs, by simp [numbering, hl, hs], rfl⟩
  | spawn hl hs hc =>
    have hthread := hsync.thread_eq (by rw [hl]; rfl) hs
    exact .inl (hput hs fun _ => ⟨rfl, by rw [hthread]; decide⟩)
  | send pid hl hs => exact .inl (hput hs fun hn => ⟨rfl, hn⟩)
  | thread hs hrank hdone effect =>
    exact .inl (hput hs fun hn => ⟨rfl, ThreadPc.named_of_next hrank hdone hn⟩)
  | attach hs pc bound => exact .inl (hput hs fun hn => ⟨rfl, hn⟩)
  | destroy hs pc => exact .inl (hput hs fun hn => ⟨rfl, hn⟩)

/-- A clear step keeps the sessions apart: the number is a new one in its own pool. -/
theorem Apart.step {r r' : State} {l : Label} (h : Apart r) (hsync : Sync r)
    (hrecords : Records r) (hclear : r.Clear l) (hstep : r.step l = some r') : Apart r' := by
  obtain hback | ⟨k, s, hs, hnumbering, hr⟩ := State.named_of_step hsync hstep
  · intro i j t v kind kind' path hij ht hv htn hvn htp
    obtain ⟨u, hu, huname, hun⟩ := hback i t ht htn
    obtain ⟨x, hx, hxname, hxn⟩ := hback j v hv hvn
    rw [← hxname]
    exact h i j u x kind kind' path hij hu hx hun hxn (by rw [huname]; exact htp)
  · exact h.number hrecords r' hr rfl rfl
      (hclear { s with no := (r.record s.pool).2 } hnumbering)

end CachelibArchive.ClientServer.Registry
