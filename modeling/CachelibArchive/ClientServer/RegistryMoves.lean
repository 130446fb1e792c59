import CachelibArchive.ClientServer.RegistryNames

/-!
# What a step of the registry can do

Every step is one of the moves below. A thread always goes on to its next statement;
what it does beside that is its effect on the objects it holds, the kernel, the records
and the lock.
-/

namespace CachelibArchive.ClientServer.Registry

/-- What a statement of a thread does beside going on: to its handles, to the kernel, to the
records and to the lock. -/
inductive ThreadEffect (r : State) (s : Registration) :
    (Kind → Nat) → Kernel → (Name → Option (Int × Nat)) → Bool → Prop where
  | opening {kind : Kind} {path : Name} (pc : s.thread = .opening kind)
      (hpath : kind.path s.name = some path) :
      ThreadEffect r s (Function.update s.threadHandle kind (r.kernel.openCreate path).2)
        (r.kernel.openCreate path).1 r.poolRecord r.locked
  /-- `sem_open` has failed. -/
  | refused {kind : Kind} (pc : s.thread = .opening kind) (hkind : kind ≠ .shm)
      (hpath : kind.path s.name = none) :
      ThreadEffect r s s.threadHandle r.kernel r.poolRecord r.locked
  | ftruncate (pc : s.thread = .ftruncate) :
      ThreadEffect r s s.threadHandle
        (r.kernel.modify (s.threadHandle .shm) fun o => { o with sized := true })
        r.poolRecord r.locked
  | serving (pc : s.thread = .serving)
      (closing : r.kernel.objects[s.threadHandle .shm]?.any Object.closing = true) :
      ThreadEffect r s s.threadHandle
        (r.kernel.modify (s.threadHandle .sem) fun o => { o with posted := false })
        r.poolRecord r.locked
  | unlinking {kind : Kind} (pc : s.thread = .unlinking kind) :
      ThreadEffect r s s.threadHandle (r.kernel.unlink (kind.path s.name)) r.poolRecord r.locked
  | locking (pc : s.thread = .locking) :
      ThreadEffect r s s.threadHandle r.kernel r.poolRecord true
  | decrementing {chs : CacheHitStatistics} (pc : s.thread = .decrementing)
      (hchs : r.chs[s.chs]? = some chs) :
      ThreadEffect r s s.threadHandle r.kernel
        (Function.update r.poolRecord chs.poolName
          (some ((r.record chs.poolName).1 - 1, (r.record chs.poolName).2))) r.locked
  | unlocking (pc : s.thread = .unlocking) :
      ThreadEffect r s s.threadHandle r.kernel r.poolRecord false

/-- The unlocked look at a pool's record. -/
def State.looksFresh (r : State) (pool : Name) : Bool :=
  match r.poolRecord pool with
  | none => true
  | some p => p.1 == 0

/-- The moves of the registry. -/
inductive Move (r : State) : State → Prop where
  /-- Somebody spins. -/
  | idle : Move r r
  /-- A thread whose name is refused ends the process. -/
  | exit {k : Nat} {s : Registration} {kind : Kind} (hs : r.registrations[k]? = some s)
      (hnamed : s.thread.Named) (hpath : kind.path s.name = none) :
      Move r { r with exited := true }
  | accept (pool : Name) (hl : r.listener = .accept) :
      Move r { r with
        listener := .find r.registrations.length
        registrations := r.registrations ++
          [{ pool, no := 0, chs := 0, thread := .unregistered, threadHandle := fun _ => 0,
             client := .awaiting, shmId := [], clientHandle := fun _ => 0 }] }
  | find {k : Nat} {s : Registration} (hl : r.listener = .find k)
      (hs : r.registrations[k]? = some s) :
      Move r { r with listener := .lock (r.looksFresh s.pool) k }
  | lock {fresh : Bool} {k : Nat} (hl : r.listener = .lock fresh k) :
      Move r { r with
        locked := true
        listener := if fresh then .insert k else .increment k }
  | insert {k : Nat} {s : Registration} (hl : r.listener = .insert k)
      (hs : r.registrations[k]? = some s) :
      Move r { r.put k { s with thread := .registered } with
        poolRecord := Function.update r.poolRecord s.pool (some (1, 0))
        listener := .number true k }
  | increment {k : Nat} {s : Registration} (hl : r.listener = .increment k)
      (hs : r.registrations[k]? = some s) :
      Move r { r.put k { s with thread := .registered } with
        poolRecord := Function.update r.poolRecord s.pool
          (some ((r.record s.pool).1 + 1, (r.record s.pool).2))
        listener := .number false k }
  | number {fresh : Bool} {k : Nat} {s : Registration} (hl : r.listener = .number fresh k)
      (hs : r.registrations[k]? = some s) :
      Move r { r.put k { s with no := (r.record s.pool).2, thread := .numbered } with
        poolRecord := Function.update r.poolRecord s.pool
          (some ((r.record s.pool).1, (r.record s.pool).2 + 1))
        listener := .unlock fresh k }
  | unlock {fresh : Bool} {k : Nat} (hl : r.listener = .unlock fresh k) :
      Move r { r with
        locked := false
        listener := if fresh then .newCHS k else .adjust k }
  | newCHS {k : Nat} {s : Registration} (hl : r.listener = .newCHS k)
      (hs : r.registrations[k]? = some s) :
      Move r { r with
        chs := r.chs ++ [⟨s.pool, 0⟩]
        name2CHS := Function.update r.name2CHS s.pool (some r.chs.length)
        listener := .adjust k }
  | adjust {k c : Nat} {s : Registration} (hl : r.listener = .adjust k)
      (hs : r.registrations[k]? = some s) (hc : r.name2CHS s.pool = some c) :
      Move r { r with
        chs := r.chs.modify c (CacheHitStatistics.adjustSize s.no)
        listener := .spawn k }
  | spawn {k c : Nat} {s : Registration} (hl : r.listener = .spawn k)
      (hs : r.registrations[k]? = some s) (hc : r.name2CHS s.pool = some c) :
      Move r { r.put k { s with thread := .opening .shm, chs := c } with listener := .send k }
  | send {k : Nat} {s : Registration} (pid : Nat) (hl : r.listener = .send k)
      (hs : r.registrations[k]? = some s) :
      Move r { r.put k { s with
        client := .opening .shm
        shmId := State.parseShmId (s.sendInfo pid) } with listener := .accept }
  | thread {k : Nat} {s : Registration} {handle : Kind → Nat} {kernel : Kernel}
      {record : Name → Option (Int × Nat)} {locked : Bool} (hs : r.registrations[k]? = some s)
      (hrank : 3 ≤ s.thread.rank) (hdone : s.thread ≠ .done)
      (effect : ThreadEffect r s handle kernel record locked) :
      Move r { r.put k { s with thread := s.thread.next, threadHandle := handle } with
        kernel, poolRecord := record, locked }
  | attach {k o : Nat} {s : Registration} {kind : Kind} (hs : r.registrations[k]? = some s)
      (pc : s.client = .opening kind)
      (bound : (kind.path s.shmId).bind r.kernel.bound = some o) :
      Move r (r.put k { s with
        client := s.client.next
        clientHandle := Function.update s.clientHandle kind o })
  | destroy {k : Nat} {s : Registration} (hs : r.registrations[k]? = some s)
      (pc : s.client = .attached) :
      Move r { r.put k { s with client := s.client.next } with
        kernel := (r.kernel.modify (s.clientHandle .shm) fun o => { o with closing := true }).modify
          (s.clientHandle .sem) fun o => { o with posted := true } }

namespace State

/-- The step of the listener is one of the moves. -/
theorem move_of_listenerStep {pid : Nat} {r r' : State} (h : r.listenerStep pid = some r') :
    Move r r' := by
  unfold listenerStep at h
  split at h
  · cases h
  · next k hl =>
    obtain ⟨s, hs, rfl⟩ := Option.map_eq_some_iff.mp h
    exact .find hl hs
  · next fresh k hl =>
    by_cases hr : r.locked = true
    · rw [if_pos hr] at h
      cases h
      exact .idle
    · rw [if_neg hr] at h
      cases h
      exact .lock hl
  · next k hl =>
    obtain ⟨s, hs, rfl⟩ := Option.map_eq_some_iff.mp h
    exact .insert hl hs
  · next k hl =>
    obtain ⟨s, hs, rfl⟩ := Option.map_eq_some_iff.mp h
    exact .increment hl hs
  · next fresh k hl =>
    obtain ⟨s, hs, h⟩ := Option.bind_eq_some_iff.mp h
    split_ifs at h
    cases h
    exact .number hl hs
  · next fresh k hl =>
    cases h
    exact .unlock hl
  · next k hl =>
    obtain ⟨s, hs, rfl⟩ := Option.map_eq_some_iff.mp h
    exact .newCHS hl hs
  · next k hl =>
    obtain ⟨s, hs, h⟩ := Option.bind_eq_some_iff.mp h
    obtain ⟨c, hc, rfl⟩ := Option.map_eq_some_iff.mp h
    exact .adjust hl hs hc
  · next k hl =>
    obtain ⟨s, hs, h⟩ := Option.bind_eq_some_iff.mp h
    obtain ⟨c, hc, rfl⟩ := Option.map_eq_some_iff.mp h
    exact .spawn hl hs hc
  · next k hl =>
    obtain ⟨s, hs, rfl⟩ := Option.map_eq_some_iff.mp h
    exact .send pid hl hs

/-- So is the step of a pool thread. -/
theorem move_of_threadStep {k : Nat} {s : Registration} {r r' : State}
    (hs : r.registrations[k]? = some s) (h : r.threadStep k s = some r') : Move r r' := by
  have hspawned : ∀ pc, s.thread = pc → 3 ≤ pc.rank → 3 ≤ s.thread.rank := fun pc h h' => h ▸ h'
  unfold threadStep at h
  split at h
  · cases h
  · cases h
  · cases h
  · cases h
  · next kind hpc =>
    have hrank := hspawned _ hpc (ThreadPc.rank_opening_bounds kind).1
    split at h
    · next path hpath =>
      cases h
      exact .thread hs hrank (by simp [hpc]) (.opening hpc hpath)
    · next hpath =>
      split_ifs at h with hkind
      · cases h
        exact .exit hs (by rw [hpc, hkind]; decide) hpath
      · cases h
        exact .thread hs hrank (by simp [hpc]) (.refused hpc hkind hpath)
  · next hpc =>
    cases h
    exact .thread hs (hspawned _ hpc (by decide)) (by simp [hpc]) (.ftruncate hpc)
  · next hpc =>
    split_ifs at h with hsem hcond hserver
    · cases h
      exact .exit hs (by rw [hpc]; decide) hsem
    · cases h
      exact .exit hs (by rw [hpc]; decide) hserver
    · cases h
      exact .thread hs (hspawned _ hpc (by decide)) (by simp [hpc])
        (.serving hpc ((Bool.and_eq_true _ _).mp hcond).2)
  · next kind hpc =>
    cases h
    have hrank := (ThreadPc.rank_unlinking_bounds kind).1
    exact .thread hs (hspawned _ hpc (by omega)) (by simp [hpc]) (.unlinking hpc)
  · next hpc =>
    split_ifs at h <;> cases h
    · exact .idle
    · exact .thread hs (hspawned _ hpc (by decide)) (by simp [hpc]) (.locking hpc)
  · next hpc =>
    obtain ⟨chs, hchs, rfl⟩ := Option.map_eq_some_iff.mp h
    exact .thread hs (hspawned _ hpc (by decide)) (by simp [hpc]) (.decrementing hpc hchs)
  · next hpc =>
    cases h
    exact .thread hs (hspawned _ hpc (by decide)) (by simp [hpc]) (.unlocking hpc)

/-- So is the step of a client. -/
theorem move_of_clientStep {k : Nat} {s : Registration} {r r' : State}
    (hs : r.registrations[k]? = some s) (h : r.clientStep k s = some r') : Move r r' := by
  unfold clientStep at h
  split at h
  · cases h
  · cases h
  · next kind hpc =>
    split at h
    · cases h
      exact .idle
    · next o ho =>
      cases h
      exact .attach hs hpc ho
  · next hpc =>
    cases h
    exact .destroy hs hpc

/-- Every step is a move. -/
theorem move_of_step {r r' : State} {l : Label} (h : r.step l = some r') : Move r r' := by
  cases l with
  | accept pool =>
    simp only [step, acceptStep] at h
    split_ifs at h
    split at h
    · next hl =>
      cases h
      exact .accept pool hl
    · cases h
  | listener pid =>
    simp only [step] at h
    split_ifs at h
    exact move_of_listenerStep h
  | thread k =>
    simp only [step] at h
    split_ifs at h
    obtain ⟨s, hs, h⟩ := Option.bind_eq_some_iff.mp h
    exact move_of_threadStep hs h
  | client k =>
    obtain ⟨s, hs, h⟩ := Option.bind_eq_some_iff.mp h
    exact move_of_clientStep hs h

end State

end CachelibArchive.ClientServer.Registry
