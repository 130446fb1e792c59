import CachelibArchive.ClientServer.RegistryObjects

/-!
# No session is shared

A client attaches to what its own thread has created, since no other thread holds those
files, and its thread unlinks them only after the client has closed the session. With
the records and the statistics this holds in every state the registry reaches, as long as
the sessions of different pools are clear of each other. The pools `a` and `/a` are not.
-/

namespace CachelibArchive.ClientServer.Registry

/-- A client and its own thread agree. -/
structure Registration.InStep (s : Registration) : Prop where
  /-- A client with a reply knows the name of its session. -/
  named : s.client ≠ .awaiting → s.shmId = s.name ∧ 3 ≤ s.thread.rank
  /-- Until it has closed, the thread is not behind its loop. -/
  alive : s.client ≠ .closed → s.thread.rank ≤ 8
  /-- What the client has opened is what its thread has created. -/
  handle : ∀ kind, s.client.Opened kind →
    s.Has kind ∧ s.clientHandle kind = s.threadHandle kind

/-- The clients and the threads agree. -/
structure Clients (r : State) : Prop where
  inStep : ∀ (k : Nat) (s : Registration), r.registrations[k]? = some s → s.InStep
  /-- A shared memory that holds `SIG_CLOSE` is that of a closed session. -/
  closing : ∀ o, r.kernel.Closing o → ∃ (k : Nat) (s : Registration),
    r.registrations[k]? = some s ∧ s.client = .closed ∧ s.threadHandle .shm = o

theorem ClientPc.not_opened_of_rank {pc : ClientPc} (h : pc.rank ≤ 1) (kind : Kind) :
    ¬ pc.Opened kind := by
  have hpos : 1 ≤ (opening kind).rank := by cases kind <;> decide
  unfold Opened
  omega

theorem ClientPc.opened_next_opening (kind kind' : Kind) :
    (opening kind).next.Opened kind' ↔ (opening kind).Opened kind' ∨ kind' = kind := by
  unfold Opened
  cases kind <;> cases kind' <;> decide

theorem ClientPc.opened_closed (kind : Kind) : ClientPc.closed.Opened kind := by
  unfold Opened
  cases kind <;> decide

/-- A waiting client and its thread agree as long as the thread is not behind its loop. -/
theorem Registration.InStep.of_awaiting {s : Registration} (hc : s.client = .awaiting)
    (hrank : s.thread.rank ≤ 8) : s.InStep where
  named h := absurd hc h
  alive _ := hrank
  handle kind ho := absurd ho (ClientPc.not_opened_of_rank (by rw [hc]; decide) kind)

/-- A registration changes, and with it the objects. -/
theorem Clients.put {r : State} (h : Clients r) {k : Nat} {s s' : Registration}
    (hs : r.registrations[k]? = some s) (r' : State)
    (hr : r'.registrations = r.registrations.set k s') (hstep : s'.InStep)
    (hclosing : ∀ o, r'.kernel.Closing o →
      r.kernel.Closing o ∨ s'.client = .closed ∧ s'.threadHandle .shm = o)
    (hkeep : s.client = .closed →
      s'.client = .closed ∧ s'.threadHandle .shm = s.threadHandle .shm) : Clients r' := by
  refine ⟨fun j t ht => ?_, fun o ho => ?_⟩
  · rw [hr] at ht
    obtain ⟨rfl, rfl⟩ | ⟨-, ht⟩ := set_eq_some ht
    · exact hstep
    · exact h.inStep j t ht
  · rw [hr]
    obtain ho | ⟨hc, ho⟩ := hclosing o ho
    · obtain ⟨j, t, ht, hc, hto⟩ := h.closing o ho
      by_cases hjk : j = k
      · subst hjk
        obtain rfl := Option.some.inj (ht.symm.trans hs)
        obtain ⟨hc', hto'⟩ := hkeep hc
        exact ⟨j, s', set_self hs, hc', hto'.trans hto⟩
      · exact ⟨j, t, set_ne hjk ht, hc, hto⟩
    · exact ⟨k, s', set_self hs, hc, ho⟩

/-- A registration whose client waits goes on. -/
theorem Clients.put_awaiting {r : State} (h : Clients r) {k : Nat} {s s' : Registration}
    (hs : r.registrations[k]? = some s) (r' : State)
    (hr : r'.registrations = r.registrations.set k s') (hkernel : r'.kernel = r.kernel)
    (hc : s.client = .awaiting) (hc' : s'.client = .awaiting) (hrank : s'.thread.rank ≤ 8) :
    Clients r' := by
  refine h.put hs r' hr (.of_awaiting hc' hrank) (fun o ho => .inl (hkernel ▸ ho)) fun hclosed => ?_
  rw [hc] at hclosed
  cases hclosed

/-- Moves of the listener alone. -/
theorem Clients.listener {r : State} (h : Clients r) (r' : State)
    (hr : r'.registrations = r.registrations) (hkernel : r'.kernel = r.kernel) : Clients r' :=
  ⟨by rw [hr]; exact h.inStep, by rw [hr, hkernel]; exact h.closing⟩

theorem Kernel.Closing.of_modify {k : Kernel} {o p : Nat} {f : Object → Object}
    (h : (k.modify p f).Closing o) (hf : ∀ x : Object, (f x).closing = x.closing) :
    k.Closing o :=
  (any_modify hf).symm.trans h

/-- A new object holds no request. -/
theorem Kernel.Closing.of_openCreate {k : Kernel} {o : Nat} {path : Name}
    (h : (k.openCreate path).1.Closing o) : k.Closing o := by
  unfold openCreate at h
  cases hb : k.bound path with
  | some p =>
    rw [hb] at h
    exact h
  | none =>
    rw [hb] at h
    unfold Closing at h ⊢
    simp only [List.getElem?_append] at h
    split_ifs at h with hlt
    · exact h
    · cases hx : ([⟨false, false, false⟩] : List Object)[o - k.objects.length]? with
      | none =>
        rw [hx] at h
        cases h
      | some x =>
        have hmem := List.mem_singleton.mp (List.mem_of_getElem? hx)
        rw [hx, hmem] at h
        cases h

/-- The kernel's requests to close are older than any statement of a thread. -/
theorem ThreadEffect.closing {r : State} {s : Registration} {handle : Kind → Nat}
    {kernel : Kernel} {record : Name → Option (Int × Nat)} {locked : Bool}
    (h : ThreadEffect r s handle kernel record locked) {o : Nat} (ho : kernel.Closing o) :
    r.kernel.Closing o := by
  cases h with
  | opening pc hpath => exact ho.of_openCreate
  | unlinking pc =>
    unfold Kernel.unlink at ho
    split at ho <;> exact ho
  | ftruncate pc => exact ho.of_modify fun _ => rfl
  | serving pc closing => exact ho.of_modify fun _ => rfl
  | _ => exact ho

/-- What a thread has opened keeps its handle. -/
theorem ThreadEffect.handle_eq {r : State} {s : Registration} {handle : Kind → Nat}
    {kernel : Kernel} {record : Name → Option (Int × Nat)} {locked : Bool}
    (h : ThreadEffect r s handle kernel record locked) {kind : Kind} (ho : s.thread.Opened kind) :
    handle kind = s.threadHandle kind := by
  cases h with
  | @opening kind' path pc hpath =>
    refine Function.update_of_ne ?_ ..
    rintro rfl
    rw [pc] at ho
    exact absurd ho (Nat.lt_irrefl _)
  | _ => rfl

/-- A thread that sees `SIG_CLOSE` is that of a closed session. -/
theorem Clients.closed_of_closing {r : State} (h : Clients r) (hobjects : Objects r) {k : Nat}
    {s : Registration} (hs : r.registrations[k]? = some s) (ho : s.Has .shm)
    (hclosing : r.kernel.Closing (s.threadHandle .shm)) : s.client = .closed := by
  obtain ⟨j, t, ht, hc, hto⟩ := h.closing _ hclosing
  have htopen := ((h.inStep j t ht).handle .shm (by rw [hc]; exact ClientPc.opened_closed _)).1
  by_cases hjk : j = k
  · subst hjk
    obtain rfl := Option.some.inj (ht.symm.trans hs)
    exact hc
  · exact absurd hto (hobjects.apart j k t s .shm .shm (.inl hjk) ht hs htopen ho)

/-- A statement of a thread keeps it in step with its client. -/
theorem Clients.thread {r : State} (h : Clients r) (hobjects : Objects r) {k : Nat}
    {s : Registration} {handle : Kind → Nat} {kernel : Kernel}
    {record : Name → Option (Int × Nat)} {locked : Bool} (hs : r.registrations[k]? = some s)
    (hdone : s.thread ≠ .done) (effect : ThreadEffect r s handle kernel record locked)
    (r' : State) (hkernel : r'.kernel = kernel)
    (hr : r'.registrations =
      r.registrations.set k { s with thread := s.thread.next, threadHandle := handle }) :
    Clients r' := by
  have hin := h.inStep k s hs
  have hrank := ThreadPc.rank_next hdone
  have hstep :
      ({ s with thread := s.thread.next, threadHandle := handle } : Registration).InStep := by
    refine ⟨fun hc => ?_, fun hc => ?_, fun kind ho => ?_⟩
    · obtain ⟨hname, h3⟩ := hin.named hc
      exact ⟨hname, by simp only [hrank]; omega⟩
    · have h8 := hin.alive hc
      simp only [hrank]
      by_contra hlt
      -- only its own client's request takes the thread out of its loop
      cases effect with
      | serving pc closing =>
        have hopen : s.Has .shm := hobjects.opened k s hs (by rw [pc]; decide)
        have hclosed : s.client = .closed := h.closed_of_closing hobjects hs hopen closing
        exact hc hclosed
      | opening pc hpath =>
        have hb := (ThreadPc.rank_opening_bounds ‹_›).2
        rw [pc] at hlt
        omega
      | refused pc hkind hpath =>
        have hb := (ThreadPc.rank_opening_bounds ‹_›).2
        rw [pc] at hlt
        omega
      | unlinking pc =>
        have hb := (ThreadPc.rank_unlinking_bounds ‹_›).1
        rw [pc] at h8
        omega
      | ftruncate pc =>
        rw [pc] at hlt
        exact hlt (by decide)
      | locking pc =>
        rw [pc] at h8
        exact absurd h8 (by decide)
      | decrementing pc hchs =>
        rw [pc] at h8
        exact absurd h8 (by decide)
      | unlocking pc =>
        rw [pc] at h8
        exact absurd h8 (by decide)
    · obtain ⟨hopen, heq⟩ := hin.handle kind ho
      refine ⟨⟨?_, hopen.2⟩, heq.trans (effect.handle_eq hopen.1).symm⟩
      have hlt := hopen.1
      unfold ThreadPc.Opened at hlt ⊢
      simp only [hrank]
      omega
  refine h.put hs r' hr hstep (fun o ho => .inl (effect.closing (hkernel ▸ ho))) fun hc => ?_
  have hopen := (hin.handle .shm (by rw [hc]; exact ClientPc.opened_closed _)).1
  exact ⟨hc, effect.handle_eq hopen.1⟩

/-- A client attaches to an object of its own thread. -/
theorem Clients.attach {r : State} (h : Clients r) (hapart : Apart r) (hobjects : Objects r)
    {k o : Nat} {s : Registration} {kind : Kind} (hs : r.registrations[k]? = some s)
    (pc : s.client = .opening kind)
    (bound : (kind.path s.shmId).bind r.kernel.bound = some o) :
    Clients (r.put k { s with
      client := s.client.next
      clientHandle := Function.update s.clientHandle kind o }) := by
  have hin := h.inStep k s hs
  obtain ⟨hname, hrank3⟩ := hin.named (by rw [pc]; simp)
  have hrank8 := hin.alive (by rw [pc]; simp)
  rw [hname] at bound
  obtain ⟨path, hpath, bound⟩ := Option.bind_eq_some_iff.mp bound
  obtain ⟨j, t, kind', ht, hholds, ho⟩ := hobjects.bound path o bound
  have hsn : s.thread.Named := by constructor <;> omega
  obtain ⟨rfl, rfl⟩ := hapart.eq_of_path hs ht hsn hholds.1.named hpath hholds.2
  obtain rfl := Option.some.inj (ht.symm.trans hs)
  refine h.put hs _ rfl ⟨fun _ => ⟨hname, hrank3⟩, fun _ => hrank8, fun kind' hk => ?_⟩
    (fun _ => .inl) fun hc => ?_
  · simp only [pc, ClientPc.opened_next_opening] at hk
    by_cases heq : kind' = kind
    · subst heq
      exact ⟨hholds.has, (Function.update_self ..).trans ho.symm⟩
    · obtain hk | hk := hk
      · obtain ⟨hopen, hhandle⟩ := hin.handle kind' (by rw [pc]; exact hk)
        exact ⟨hopen, (Function.update_of_ne heq ..).trans hhandle⟩
      · exact absurd hk heq
  · rw [pc] at hc
    cases hc

/-- A client asks its own thread to close. -/
theorem Clients.destroy {r : State} (h : Clients r) {k : Nat} {s : Registration}
    (hs : r.registrations[k]? = some s) (pc : s.client = .attached) :
    Clients { r.put k { s with client := s.client.next } with
      kernel := (r.kernel.modify (s.clientHandle .shm) fun o => { o with closing := true }).modify
        (s.clientHandle .sem) fun o => { o with posted := true } } := by
  have hin := h.inStep k s hs
  have hall : ∀ kind, s.client.Opened kind := by
    intro kind
    rw [pc]
    unfold ClientPc.Opened
    cases kind <;> decide
  have hclosed : s.client.next = .closed := by rw [pc]; rfl
  refine h.put hs _ rfl ⟨fun _ => hin.named (by rw [pc]; simp), fun hc => absurd hclosed hc,
    fun kind _ => hin.handle kind (hall kind)⟩ (fun o ho => ?_) fun hc => ?_
  · have ho' := Kernel.Closing.of_modify ho fun _ => rfl
    by_cases heq : o = s.clientHandle .shm
    · exact .inr ⟨hclosed, (hin.handle .shm (hall .shm)).2.symm.trans heq.symm⟩
    · left
      unfold Kernel.Closing Kernel.modify at ho'
      unfold Kernel.Closing
      rwa [List.getElem?_modify_ne _ _ (Ne.symm heq)] at ho'
  · rw [pc] at hc
    cases hc

/-- Every move keeps the clients and the threads in agreement. -/
theorem Clients.move {r r' : State} (h : Clients r) (hsync : Sync r) (hapart : Apart r)
    (hobjects : Objects r) (hm : Move r r') : Clients r' := by
  have hwait : ∀ {k : Nat} {s : Registration} {pc : ThreadPc},
      r.listener.stage = some (k, pc) → r.registrations[k]? = some s → s.client = .awaiting := by
    intro k s pc hl hs
    refine hsync.awaiting k s hs ?_
    rw [hsync.thread_eq hl hs]
    exact stage_rank hl
  cases hm with
  | idle => exact h
  | exit hs hnamed hpath => exact h.listener _ rfl rfl
  | accept pool hl =>
    refine ⟨fun j t ht => ?_, fun o ho => ?_⟩
    · obtain ⟨-, rfl⟩ | ht := concat_eq_some ht
      · exact .of_awaiting rfl (by decide : ThreadPc.unregistered.rank ≤ 8)
      · exact h.inStep j t ht
    · obtain ⟨j, t, ht, hrest⟩ := h.closing o ho
      exact ⟨j, t, concat_of_some ht, hrest⟩
  | find hl hs => exact h.listener _ rfl rfl
  | lock hl => exact h.listener _ rfl rfl
  | insert hl hs =>
    have hc := hwait (by rw [hl]; rfl) hs
    exact h.put_awaiting hs _ rfl rfl hc hc (by decide : ThreadPc.registered.rank ≤ 8)
  | increment hl hs =>
    have hc := hwait (by rw [hl]; rfl) hs
    exact h.put_awaiting hs _ rfl rfl hc hc (by decide : ThreadPc.registered.rank ≤ 8)
  | number hl hs =>
    have hc := hwait (by rw [hl]; rfl) hs
    exact h.put_awaiting hs _ rfl rfl hc hc (by decide : ThreadPc.numbered.rank ≤ 8)
  | unlock hl => exact h.listener _ rfl rfl
  | newCHS hl hs => exact h.listener _ rfl rfl
  | adjust hl hs hc => exact h.listener _ rfl rfl
  | spawn hl hs hc =>
    have hc := hwait (by rw [hl]; rfl) hs
    exact h.put_awaiting hs _ rfl rfl hc hc (by decide : (ThreadPc.opening .shm).rank ≤ 8)
  | @send k s pid hl hs =>
    obtain ⟨t, ht, hrank, hc⟩ := hsync.sending k hl
    obtain rfl := Option.some.inj (ht.symm.trans hs)
    have halive := (h.inStep k t hs).alive (by rw [hc]; simp)
    refine h.put hs _ rfl ⟨fun _ => ⟨parseShmId_reply pid _, hrank⟩, fun _ => halive,
      fun kind ho => ?_⟩ (fun _ => .inl) fun hclosed => ?_
    · exact absurd ho
        (ClientPc.not_opened_of_rank (by decide : (ClientPc.opening .shm).rank ≤ 1) kind)
    · rw [hc] at hclosed
      cases hclosed
  | thread hs hrank hdone effect => exact h.thread hobjects hs hdone effect _ rfl rfl
  | attach hs pc bound => exact h.attach hapart hobjects hs pc bound
  | destroy hs pc => exact h.destroy hs pc

/-! ## Every state of a run -/

/-- All that is invariant. -/
structure Inv (r : State) : Prop where
  sync : Sync r
  records : Records r
  apart : Apart r
  stats : Stats r
  objects : Objects r
  clients : Clients r

theorem Inv.initial : Inv State.initial where
  sync := ⟨by simp [State.initial], by simp [State.initial, ListenerPc.stage],
    by simp [State.initial], by simp [State.initial]⟩
  records := by constructor <;> simp [State.initial, State.record, State.counted]
  apart := by simp [Apart, State.initial]
  stats := by constructor <;> simp [State.initial]
  objects := by constructor <;> simp [State.initial]
  clients := by constructor <;> simp [State.initial, Kernel.Closing]

/-- A clear step keeps it. -/
theorem Inv.step {r r' : State} {l : Label} (h : Inv r) (hclear : r.Clear l)
    (hstep : r.step l = some r') : Inv r' := by
  have hm := State.move_of_step hstep
  have hclient : ∀ (k : Nat) (s : Registration), r.registrations[k]? = some s →
      s.client ≠ .awaiting → 3 ≤ s.thread.rank :=
    fun k s hs hc => ((h.clients.inStep k s hs).named hc).2
  have hpool : ∀ (k : Nat) (s : Registration) (chs : CacheHitStatistics),
      r.registrations[k]? = some s → 3 ≤ s.thread.rank → r.chs[s.chs]? = some chs →
      chs.poolName = s.pool := by
    intro k s chs hs hrank hchs
    obtain ⟨chs', hchs', heq, -⟩ := h.stats.index k s hs hrank
    obtain rfl := Option.some.inj (hchs.symm.trans hchs')
    exact heq
  exact ⟨h.sync.move hclient hm, h.records.move h.sync hpool hm,
    h.apart.step h.sync h.records hclear hstep, h.stats.move h.sync h.records hm,
    h.objects.move h.sync h.apart hm, h.clients.move h.sync h.apart h.objects hm⟩

/-- No session is shared. -/
structure Safe (r : State) : Prop where
  /-- `poolRecord[pool].first` is the number of the pool's threads that were counted and have
  not yet decremented. -/
  count : ∀ pool, (r.record pool).1 = r.counted pool
  /-- The names of sessions that are not yet unlinked are distinct. -/
  distinct : ∀ (k l : Nat) (s t : Registration), k ≠ l → r.registrations[k]? = some s →
    r.registrations[l]? = some t → 2 ≤ s.thread.rank → s.thread.rank ≤ 12 →
    2 ≤ t.thread.rank → t.thread.rank ≤ 12 → s.name ≠ t.name
  /-- The number of a live thread is an index into the vectors of its pool's statistics. -/
  index : ∀ (k : Nat) (s : Registration), r.registrations[k]? = some s → 3 ≤ s.thread.rank →
    s.thread ≠ .done →
    ∃ chs : CacheHitStatistics, r.chs[s.chs]? = some chs ∧ chs.poolName = s.pool ∧ s.no < chs.size
  /-- A client behind `prepare_shm` is attached to the four objects of its own thread. -/
  attached : ∀ (k : Nat) (s : Registration), r.registrations[k]? = some s →
    ClientPc.attached.rank ≤ s.client.rank →
    s.shmId = s.name ∧ ∀ kind, s.Has kind ∧ s.clientHandle kind = s.threadHandle kind
  /-- The shared memory has got its size. -/
  sized : ∀ (k : Nat) (s : Registration), r.registrations[k]? = some s →
    ClientPc.attached.rank ≤ s.client.rank → r.kernel.Sized (s.clientHandle .shm)
  /-- No two clients are attached to one object. -/
  apart : ∀ (k l : Nat) (s t : Registration) (kind kind' : Kind), k ≠ l →
    r.registrations[k]? = some s → r.registrations[l]? = some t →
    ClientPc.attached.rank ≤ s.client.rank → ClientPc.attached.rank ≤ t.client.rank →
    s.clientHandle kind ≠ t.clientHandle kind'

theorem Inv.attached {r : State} (h : Inv r) {k : Nat} {s : Registration}
    (hs : r.registrations[k]? = some s) (hc : ClientPc.attached.rank ≤ s.client.rank) (kind : Kind) :
    s.Has kind ∧ s.clientHandle kind = s.threadHandle kind := by
  refine (h.clients.inStep k s hs).handle kind ?_
  have hlast : (ClientPc.opening kind).rank < ClientPc.attached.rank := by cases kind <;> decide
  exact Nat.lt_of_lt_of_le hlast hc

theorem Inv.safe {r : State} (h : Inv r) : Safe r where
  count := h.records.count
  distinct k l s t hkl hs ht hs2 hs12 ht2 ht12 hname := by
    obtain ⟨hpool, hno⟩ := Registration.name_inj.mp hname
    exact h.records.unique k l s t hkl hs ht ⟨hs2, by omega⟩ ⟨ht2, by omega⟩ hpool hno
  index k s hs hrank _ := h.stats.index k s hs hrank
  attached k s hs hc := by
    refine ⟨((h.clients.inStep k s hs).named ?_).1, h.attached hs hc⟩
    intro hawait
    rw [hawait] at hc
    exact absurd hc (by decide)
  sized k s hs hc := by
    obtain ⟨hopen, heq⟩ := h.attached hs hc .semGetBack
    rw [(h.attached hs hc .shm).2]
    refine h.objects.sized k s hs ?_
    have hlt : (ThreadPc.opening .semGetBack).rank < s.thread.rank := hopen.1
    exact Nat.le_trans (by decide) hlt
  apart k l s t kind kind' hkl hs ht hsc htc := by
    obtain ⟨hso, hseq⟩ := h.attached hs hsc kind
    obtain ⟨hto, hteq⟩ := h.attached ht htc kind'
    rw [hseq, hteq]
    exact h.objects.apart k l s t kind kind' (.inl hkl) hs ht hso hto

/-- As long as every session that gets a number is clear of those of other pools, no session is
shared in any state, whatever the interleaving. -/
theorem State.safe_of_clear {labels : List Label}
    (h : Run.EachStep State.step State.Clear State.initial labels) :
    Run.Always State.step Safe State.initial labels :=
  Run.EachStep.always (fun _ => Inv.safe) (fun _ _ _ hr hc hs => hr.step hc hs) Inv.initial h

/-- A client registers for a pool and attaches, its thread having gone as far as its loop. -/
def attaching (pool : Name) (k : Nat) : List Label :=
  .accept pool :: List.replicate 9 (.listener 1) ++ List.replicate 5 (.thread k) ++
    List.replicate 4 (.client k)

/-- A client of a pool `a` and one of `/b`. The first closes its session, which is unlinked, and
another one of `a` gets the number 0 again. -/
def threeSessions : List Label :=
  attaching [97] 0 ++ attaching [47, 98] 1 ++ .client 0 :: List.replicate 8 (.thread 0) ++
    attaching [97] 2

theorem State.safe_of_clear_threeSessions :
    (Run.exec State.step State.initial threeSessions).map
        (fun r => r.registrations.map fun s => (s.name, s.client)) =
      some [([97, 95, 48], .closed), ([47, 98, 95, 48], .attached), ([97, 95, 48], .attached)] ∧
    Run.Always State.step Safe State.initial threeSessions :=
  ⟨by decide +kernel, State.safe_of_clear (by decide +kernel)⟩

/-- The sessions of the pools `a` and `/a` have the same files: both clients are attached to the
objects of the first thread. -/
theorem State.not_safe_slash : ¬ Run.Always State.step Safe State.initial
    (attaching [97] 0 ++ attaching [47, 97] 1) := by
  intro h
  have hrun : (Run.exec State.step State.initial (attaching [97] 0 ++ attaching [47, 97] 1)).map
      (fun r => r.registrations.map fun s => (s.client.rank, s.clientHandle .shm)) =
        some [(5, 0), (5, 0)] := by
    decide +kernel
  obtain ⟨r, hr, hclients⟩ := Option.map_eq_some_iff.mp hrun
  have hsafe := h.last hr
  have hlen : r.registrations.length = 2 := by simpa using congrArg List.length hclients
  obtain ⟨s, t, hl⟩ := List.length_eq_two.mp hlen
  rw [hl] at hclients
  simp only [List.map_cons, List.map_nil, List.cons.injEq, Prod.mk.injEq, and_true] at hclients
  obtain ⟨⟨hs, hso⟩, ht, hto⟩ := hclients
  exact hsafe.apart 0 1 s t .shm .shm (by decide) (by rw [hl]; rfl) (by rw [hl]; rfl)
    (Nat.le_of_eq hs.symm) (Nat.le_of_eq ht.symm) (hso.trans hto.symm)

end CachelibArchive.ClientServer.Registry
