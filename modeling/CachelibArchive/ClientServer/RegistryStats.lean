import CachelibArchive.ClientServer.RegistryRecords

/-!
# The statistics of the pools

A pool with a record has a statistics object of its own, unless the listener is just
about to create one; the object a thread is given has room for the thread's number,
and objects only grow.
-/

namespace CachelibArchive.ClientServer.Registry

/-- The pool's statistics object is there. -/
def State.HasChs (r : State) (pool : Name) : Prop :=
  ∃ (c : Nat) (chs : CacheHitStatistics),
    r.name2CHS pool = some c ∧ r.chs[c]? = some chs ∧ chs.poolName = pool

/-- The registration for whose pool the listener is about to create an object. -/
def ListenerPc.creating : ListenerPc → Option Nat
  | .number true k => some k
  | .unlock true k => some k
  | .newCHS k => some k
  | _ => none

/-- What the statistics objects are good for. -/
structure Stats (r : State) : Prop where
  /-- A pool with a record has an object, or will have one. -/
  owned : ∀ pool, (r.poolRecord pool).isSome = true → r.HasChs pool ∨
    ∃ (k : Nat) (s : Registration), r.listener.creating = some k ∧
      r.registrations[k]? = some s ∧ s.pool = pool
  /-- About to spawn a thread, its object has room for its number. -/
  room : ∀ (k : Nat) (s : Registration), r.listener = .spawn k → r.registrations[k]? = some s →
    ∃ (c : Nat) (chs : CacheHitStatistics), r.name2CHS s.pool = some c ∧ r.chs[c]? = some chs ∧
      chs.poolName = s.pool ∧ s.no < chs.size
  /-- A thread's number is an index into its object. -/
  index : ∀ (k : Nat) (s : Registration), r.registrations[k]? = some s → 3 ≤ s.thread.rank →
    ∃ chs : CacheHitStatistics, r.chs[s.chs]? = some chs ∧ chs.poolName = s.pool ∧
      s.no < chs.size

/-- Moves of the listener that leave the objects, the records and the registrations alone. -/
theorem Stats.listener {r : State} (h : Stats r) (r' : State) (hname : r'.name2CHS = r.name2CHS)
    (hchs : r'.chs = r.chs) (hrec : r'.poolRecord = r.poolRecord)
    (hr : r'.registrations = r.registrations)
    (hcreating : r'.listener.creating = r.listener.creating)
    (hspawn : ∀ k, r'.listener ≠ .spawn k) : Stats r' := by
  refine ⟨fun pool hp => ?_, fun k s hl => absurd hl (hspawn k), fun k s hs hrank => ?_⟩
  · rw [State.HasChs, hname, hchs, hcreating, hr]
    exact h.owned pool (hrec ▸ hp)
  · rw [hchs]
    exact h.index k s (hr ▸ hs) hrank

/-- A registration changes while the objects stay. -/
theorem Stats.put {r : State} (h : Stats r) {k : Nat} {s s' : Registration}
    (hs : r.registrations[k]? = some s) (r' : State)
    (hr : r'.registrations = r.registrations.set k s') (hname : r'.name2CHS = r.name2CHS)
    (hchs : r'.chs = r.chs)
    (hrec : ∀ pool, (r'.poolRecord pool).isSome = true → (r.poolRecord pool).isSome = true)
    (hpool : s'.pool = s.pool) (hcreating : r'.listener.creating = r.listener.creating)
    (hspawn : ∀ j, r'.listener = .spawn j → r.listener = .spawn j ∧ s'.no = s.no)
    (hrank : 3 ≤ s'.thread.rank → 3 ≤ s.thread.rank ∧ s'.chs = s.chs ∧ s'.no = s.no) :
    Stats r' := by
  refine ⟨fun pool hp => ?_, fun j t hl ht => ?_, fun j t ht hrank' => ?_⟩
  · obtain hown | ⟨j, t, hj, ht, htp⟩ := h.owned pool (hrec pool hp)
    · left
      rwa [State.HasChs, hname, hchs]
    · right
      by_cases hjk : j = k
      · subst hjk
        obtain rfl := Option.some.inj (ht.symm.trans hs)
        exact ⟨j, s', hcreating.trans hj, by rw [hr]; exact set_self hs, hpool.trans htp⟩
      · exact ⟨j, t, hcreating.trans hj, by rw [hr]; exact set_ne hjk ht, htp⟩
  · obtain ⟨hl', hno⟩ := hspawn j hl
    rw [hname, hchs]
    rw [hr] at ht
    obtain ⟨rfl, rfl⟩ | ⟨-, ht⟩ := set_eq_some ht
    · rw [hpool, hno]
      exact h.room j s hl' hs
    · exact h.room j t hl' ht
  · rw [hchs]
    rw [hr] at ht
    obtain ⟨rfl, rfl⟩ | ⟨-, ht⟩ := set_eq_some ht
    · obtain ⟨hrank, hc, hno⟩ := hrank hrank'
      rw [hc, hpool, hno]
      exact h.index j s hs hrank
    · exact h.index j t ht hrank'

/-- The listener takes a pool into the records before it creates its object. -/
theorem Stats.insert {r : State} (h : Stats r) {k : Nat} {s s' : Registration}
    (hl : r.listener = .insert k) (hs : r.registrations[k]? = some s) (r' : State)
    (hr : r'.registrations = r.registrations.set k s') (hname : r'.name2CHS = r.name2CHS)
    (hchs : r'.chs = r.chs)
    (hrec : ∀ pool, pool ≠ s.pool → r'.poolRecord pool = r.poolRecord pool)
    (hpool : s'.pool = s.pool) (hthread : s'.thread = .registered)
    (hl' : r'.listener = .number true k) : Stats r' := by
  refine ⟨fun pool hp => ?_, fun j t hj => (by rw [hl'] at hj; cases hj), fun j t ht hrank => ?_⟩
  · by_cases hps : pool = s.pool
    · exact .inr ⟨k, s', by rw [hl']; rfl, by rw [hr]; exact set_self hs, hpool.trans hps.symm⟩
    · left
      rw [hrec pool hps] at hp
      obtain hown | ⟨j, t, hj, -⟩ := h.owned pool hp
      · rwa [State.HasChs, hname, hchs]
      · rw [hl] at hj
        cases hj
  · rw [hr] at ht
    rw [hchs]
    obtain ⟨rfl, rfl⟩ | ⟨-, ht⟩ := set_eq_some ht
    · rw [hthread] at hrank
      exact absurd hrank (by decide)
    · exact h.index j t ht hrank

/-- The listener creates the pool's object. -/
theorem Stats.newCHS {r : State} (h : Stats r) {k : Nat} {s : Registration}
    (hl : r.listener = .newCHS k) (hs : r.registrations[k]? = some s) :
    Stats { r with
      chs := r.chs ++ [⟨s.pool, 0⟩]
      name2CHS := Function.update r.name2CHS s.pool (some r.chs.length)
      listener := .adjust k } := by
  have hkeep : ∀ (c : Nat) (chs : CacheHitStatistics), r.chs[c]? = some chs →
      (r.chs ++ [⟨s.pool, 0⟩])[c]? = some chs := fun c chs hc => by
    rw [List.getElem?_append_left (List.getElem?_eq_some_iff.mp hc).1, hc]
  refine ⟨fun pool hp => .inl ?_, fun j t hj => (by cases hj), fun j t ht hrank => ?_⟩
  · by_cases hps : pool = s.pool
    · subst hps
      exact ⟨r.chs.length, ⟨s.pool, 0⟩, Function.update_self .., List.getElem?_concat_length, rfl⟩
    · obtain ⟨c, chs, hname, hchs, heq⟩ | ⟨j, t, hj, ht, htp⟩ := h.owned pool hp
      · exact ⟨c, chs, (Function.update_of_ne hps ..).trans hname, hkeep c chs hchs, heq⟩
      · rw [hl] at hj
        cases hj
        obtain rfl := Option.some.inj (ht.symm.trans hs)
        exact absurd htp.symm hps
  · obtain ⟨chs, hchs, heq, hsize⟩ := h.index j t ht hrank
    exact ⟨chs, hkeep _ _ hchs, heq, hsize⟩

/-- Adjusting an object keeps it, with at least its size. -/
theorem adjust_eq_some {l : List CacheHitStatistics} {c d n : Nat} {chs : CacheHitStatistics}
    (h : l[d]? = some chs) : ∃ chs', (l.modify c (CacheHitStatistics.adjustSize n))[d]? = some chs' ∧
      chs'.poolName = chs.poolName ∧ chs.size ≤ chs'.size := by
  rw [List.getElem?_modify, h]
  by_cases hcd : c = d
  · exact ⟨chs.adjustSize n, by simp [hcd], rfl, Nat.le_max_left ..⟩
  · exact ⟨chs, by simp [hcd], rfl, Nat.le_refl _⟩

/-- The listener makes room for the number. -/
theorem Stats.adjust {r : State} (h : Stats r) {k c : Nat} {s : Registration}
    (hl : r.listener = .adjust k) (hs : r.registrations[k]? = some s)
    (hc : r.name2CHS s.pool = some c) (hknown : (r.poolRecord s.pool).isSome = true) :
    Stats { r with
      chs := r.chs.modify c (CacheHitStatistics.adjustSize s.no)
      listener := .spawn k } := by
  refine ⟨fun pool hp => .inl ?_, fun j t hj ht => ?_, fun j t ht hrank => ?_⟩
  · obtain ⟨d, chs, hname, hchs, heq⟩ | ⟨j, t, hj, -⟩ := h.owned pool hp
    · obtain ⟨chs', hchs', hpool, -⟩ := adjust_eq_some (c := c) (n := s.no) hchs
      exact ⟨d, chs', hname, hchs', hpool.trans heq⟩
    · rw [hl] at hj
      cases hj
  · cases hj
    obtain rfl := Option.some.inj (ht.symm.trans hs)
    obtain ⟨d, chs, hname, hchs, heq⟩ | ⟨j, t', hj, -⟩ := h.owned t.pool hknown
    · obtain rfl := Option.some.inj (hc.symm.trans hname)
      refine ⟨c, chs.adjustSize t.no, hc, ?_, heq, ?_⟩
      · simp [hchs]
      · exact Nat.lt_of_succ_le (Nat.le_max_right chs.size (t.no + 1))
    · rw [hl] at hj
      cases hj
  · obtain ⟨chs, hchs, heq, hsize⟩ := h.index j t ht hrank
    obtain ⟨chs', hchs', hpool, hle⟩ := adjust_eq_some (c := c) (n := s.no) hchs
    exact ⟨chs', hchs', hpool.trans heq, Nat.lt_of_lt_of_le hsize hle⟩

/-- The listener gives the object to the thread. -/
theorem Stats.spawn {r : State} (h : Stats r) {k c : Nat} {s : Registration}
    (hl : r.listener = .spawn k) (hs : r.registrations[k]? = some s)
    (hc : r.name2CHS s.pool = some c) :
    Stats { r.put k { s with thread := .opening .shm, chs := c } with listener := .send k } := by
  refine ⟨fun pool hp => .inl ?_, fun j t hj => (by cases hj), fun j t ht hrank => ?_⟩
  · obtain hown | ⟨j, t, hj, -⟩ := h.owned pool hp
    · exact hown
    · rw [hl] at hj
      cases hj
  · obtain ⟨rfl, rfl⟩ | ⟨-, ht⟩ := set_eq_some ht
    · obtain ⟨d, chs, hname, hchs, heq, hsize⟩ := h.room j s hl hs
      obtain rfl := Option.some.inj (hc.symm.trans hname)
      exact ⟨chs, hchs, heq, hsize⟩
    · exact h.index j t ht hrank

theorem isSome_of_update {f : Name → Option (Int × Nat)} {pool pool' : Name} {p : Int × Nat}
    (hs : (f pool).isSome = true) (h : (Function.update f pool (some p) pool').isSome = true) :
    (f pool').isSome = true := by
  rw [Function.update_apply] at h
  split_ifs at h with hpool
  · rwa [hpool]
  · exact h

/-- No statement of a thread takes a pool into the records. -/
theorem ThreadEffect.isSome {r : State} {k : Nat} {s : Registration} {handle : Kind → Nat}
    {kernel : Kernel} {record : Name → Option (Int × Nat)} {locked : Bool} (hrecords : Records r)
    (hstats : Stats r) (hs : r.registrations[k]? = some s) (hrank : 3 ≤ s.thread.rank)
    (h : ThreadEffect r s handle kernel record locked) (pool : Name)
    (hp : (record pool).isSome = true) : (r.poolRecord pool).isSome = true := by
  by_cases hdec : s.thread = .decrementing
  · obtain ⟨chs, hchs, rfl⟩ := h.of_decrementing hdec
    obtain ⟨chs', hchs', heq, -⟩ := hstats.index k s hs hrank
    obtain rfl := Option.some.inj (hchs.symm.trans hchs')
    refine isSome_of_update ?_ hp
    rw [heq]
    exact hrecords.known k s hs (by rw [hdec]; decide)
  · rwa [h.record_eq hdec] at hp

/-- Every move keeps the statistics in order. -/
theorem Stats.move {r r' : State} (h : Stats r) (hsync : Sync r) (hrecords : Records r)
    (hm : Move r r') : Stats r' := by
  cases hm with
  | idle => exact h
  | exit hs hnamed hpath => exact ⟨h.owned, h.room, h.index⟩
  | accept pool hl =>
    refine ⟨fun pool hp => .inl ?_, fun j t hj => (by cases hj), fun j t ht hrank => ?_⟩
    · obtain hown | ⟨j, t, hj, -⟩ := h.owned pool hp
      · exact hown
      · rw [hl] at hj
        cases hj
    · obtain ⟨rfl, rfl⟩ | ht := concat_eq_some ht
      · exact absurd hrank (by decide : ¬ 3 ≤ ThreadPc.unregistered.rank)
      · exact h.index j t ht hrank
  | find hl hs => exact h.listener _ rfl rfl rfl rfl (by rw [hl]; rfl) (by simp)
  | @lock fresh k hl =>
    exact h.listener _ rfl rfl rfl rfl (by rw [hl]; cases fresh <;> rfl) (by cases fresh <;> simp)
  | insert hl hs =>
    exact h.insert hl hs _ rfl rfl rfl (fun pool hp => Function.update_of_ne hp ..) rfl rfl rfl
  | @increment k s hl hs =>
    exact h.put hs _ rfl rfl rfl
      (fun pool => isSome_of_update (hrecords.old k s (.inr hl) hs)) rfl (by rw [hl]; rfl)
      (fun j hj => by cases hj)
      fun hrank => absurd hrank (by decide : ¬ 3 ≤ ThreadPc.registered.rank)
  | @number fresh k s hl hs =>
    have hthread := hsync.thread_eq (by rw [hl]; rfl) hs
    exact h.put hs _ rfl rfl rfl
      (fun pool => isSome_of_update (hrecords.known k s hs (by rw [hthread]; decide))) rfl
      (by rw [hl]; cases fresh <;> rfl) (fun j hj => by cases hj)
      fun hrank => absurd hrank (by decide : ¬ 3 ≤ ThreadPc.numbered.rank)
  | @unlock fresh k hl =>
    exact h.listener _ rfl rfl rfl rfl (by rw [hl]; cases fresh <;> rfl) (by cases fresh <;> simp)
  | newCHS hl hs => exact h.newCHS hl hs
  | @adjust k c s hl hs hc =>
    have hthread := hsync.thread_eq (by rw [hl]; rfl) hs
    exact h.adjust hl hs hc (hrecords.known k s hs (by rw [hthread]; decide))
  | spawn hl hs hc => exact h.spawn hl hs hc
  | send pid hl hs =>
    exact h.put hs _ rfl rfl rfl (fun _ => id) rfl (by rw [hl]; rfl) (fun j hj => by cases hj)
      fun hrank => ⟨hrank, rfl, rfl⟩
  | thread hs hrank hdone effect =>
    exact h.put hs _ rfl rfl rfl (effect.isSome hrecords h hs hrank) rfl rfl
      (fun j hj => ⟨hj, rfl⟩) fun _ => ⟨hrank, rfl, rfl⟩
  | attach hs pc bound =>
    exact h.put hs _ rfl rfl rfl (fun _ => id) rfl rfl (fun j hj => ⟨hj, rfl⟩)
      fun hrank => ⟨hrank, rfl, rfl⟩
  | destroy hs pc =>
    exact h.put hs _ rfl rfl rfl (fun _ => id) rfl rfl (fun j hj => ⟨hj, rfl⟩)
      fun hrank => ⟨hrank, rfl, rfl⟩

end CachelibArchive.ClientServer.Registry
