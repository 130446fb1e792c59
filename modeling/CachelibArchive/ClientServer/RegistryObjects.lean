import CachelibArchive.ClientServer.RegistryStats

/-!
# The registry's kernel objects

As long as sessions that are not yet unlinked have no file in common, the files the kernel
has bound are exactly those its threads hold, and a client has opened what its own thread
has created. So a thread always creates its objects anew, and it is unlinking them only
after its own client has closed the session.
-/

namespace CachelibArchive.ClientServer.Registry

/-! ## Names and objects -/

/-- The shared memory has got its size. -/
def Kernel.Sized (k : Kernel) (o : Nat) : Prop := k.objects[o]?.any Object.sized = true

/-- The shared memory holds `SIG_CLOSE`. -/
def Kernel.Closing (k : Kernel) (o : Nat) : Prop := k.objects[o]?.any Object.closing = true

/-- The kernel and the threads agree. -/
structure Objects (r : State) : Prop where
  /-- A bound name belongs to a thread that holds its object. -/
  bound : ∀ path o, r.kernel.bound path = some o →
    ∃ (k : Nat) (s : Registration) (kind : Kind), r.registrations[k]? = some s ∧
      s.HoldsAt kind path ∧ s.threadHandle kind = o
  /-- What a thread holds is bound. -/
  holds : ∀ (k : Nat) (s : Registration) (kind : Kind) (path : Name),
    r.registrations[k]? = some s → s.HoldsAt kind path →
    r.kernel.bound path = some (s.threadHandle kind)
  /-- What a thread has opened is there. -/
  valid : ∀ (k : Nat) (s : Registration) (kind : Kind), r.registrations[k]? = some s →
    s.Has kind → s.threadHandle kind < r.kernel.objects.length
  /-- Every thread has its own objects. -/
  apart : ∀ (k l : Nat) (s t : Registration) (kind kind' : Kind), k ≠ l ∨ kind ≠ kind' →
    r.registrations[k]? = some s → r.registrations[l]? = some t →
    s.Has kind → t.Has kind' → s.threadHandle kind ≠ t.threadHandle kind'
  /-- Without its shared memory a thread does not go on. -/
  opened : ∀ (k : Nat) (s : Registration), r.registrations[k]? = some s → 4 ≤ s.thread.rank →
    s.Has .shm
  /-- Behind `ftruncate` it has its size. -/
  sized : ∀ (k : Nat) (s : Registration), r.registrations[k]? = some s → 5 ≤ s.thread.rank →
    r.kernel.Sized (s.threadHandle .shm)

/-- A change that a test does not see. -/
theorem any_modify {l : List Object} {o p : Nat} {f : Object → Object} {q : Object → Bool}
    (h : ∀ x, q (f x) = q x) : (l.modify o f)[p]?.any q = l[p]?.any q := by
  rw [List.getElem?_modify]
  cases l[p]? with
  | none => rfl
  | some x => by_cases hop : o = p <;> simp [hop, h]

/-- A registration changes without opening or unlinking anything. -/
theorem Objects.put {r : State} (h : Objects r) {k : Nat} {s s' : Registration}
    (hs : r.registrations[k]? = some s) (r' : State)
    (hr : r'.registrations = r.registrations.set k s')
    (hbound : r'.kernel.bound = r.kernel.bound)
    (hlen : r'.kernel.objects.length = r.kernel.objects.length)
    (hkeep : ∀ o, r.kernel.Sized o → r'.kernel.Sized o)
    (hholds : ∀ kind path, s'.HoldsAt kind path ↔ s.HoldsAt kind path)
    (hhas : ∀ kind, s'.Has kind ↔ s.Has kind)
    (hsame : ∀ kind, s.Has kind → s'.threadHandle kind = s.threadHandle kind)
    (hopened : 4 ≤ s'.thread.rank → s.Has .shm)
    (hsized : 5 ≤ s'.thread.rank → r'.kernel.Sized (s'.threadHandle .shm)) : Objects r' := by
  -- each registration is one from before, up to what does not matter here
  have hback : ∀ (j : Nat) (t : Registration), r'.registrations[j]? = some t →
      ∃ u, r.registrations[j]? = some u ∧
        (∀ kind path, t.HoldsAt kind path ↔ u.HoldsAt kind path) ∧
        (∀ kind, t.Has kind ↔ u.Has kind) ∧
        ∀ kind, u.Has kind → t.threadHandle kind = u.threadHandle kind := by
    intro j t ht
    rw [hr] at ht
    obtain ⟨rfl, rfl⟩ | ⟨-, ht⟩ := set_eq_some ht
    · exact ⟨s, hs, hholds, hhas, hsame⟩
    · exact ⟨t, ht, fun _ _ => Iff.rfl, fun _ => Iff.rfl, fun _ _ => rfl⟩
  refine ⟨fun path o hp => ?_, fun j t kind path ht hh => ?_, fun j t kind ht ho => ?_,
    fun i j t v kind' kind'' hij ht hv hto hvo => ?_, fun j t ht hrank => ?_,
    fun j t ht hrank => ?_⟩
  · obtain ⟨j, t, kind, ht, hh, ho⟩ := h.bound path o (hbound ▸ hp)
    by_cases hjk : j = k
    · subst hjk
      obtain rfl := Option.some.inj (ht.symm.trans hs)
      exact ⟨j, s', kind, by rw [hr]; exact set_self hs, (hholds kind path).mpr hh,
        (hsame kind hh.has).trans ho⟩
    · exact ⟨j, t, kind, by rw [hr]; exact set_ne hjk ht, hh, ho⟩
  · obtain ⟨u, hu, huh, -, hus⟩ := hback j t ht
    have hh' := (huh kind path).mp hh
    rw [hbound, hus kind hh'.has]
    exact h.holds j u kind path hu hh'
  · obtain ⟨u, hu, -, huo, hus⟩ := hback j t ht
    have ho' := (huo kind).mp ho
    rw [hlen, hus kind ho']
    exact h.valid j u kind hu ho'
  · obtain ⟨u, hu, -, huo, hus⟩ := hback i t ht
    obtain ⟨x, hx, -, hxo, hxs⟩ := hback j v hv
    have hu' := (huo kind').mp hto
    have hx' := (hxo kind'').mp hvo
    rw [hus kind' hu', hxs kind'' hx']
    exact h.apart i j u x kind' kind'' hij hu hx hu' hx'
  · rw [hr] at ht
    obtain ⟨rfl, rfl⟩ | ⟨-, ht⟩ := set_eq_some ht
    · exact (hhas .shm).mpr (hopened hrank)
    · exact h.opened j t ht hrank
  · rw [hr] at ht
    obtain ⟨rfl, rfl⟩ | ⟨-, ht⟩ := set_eq_some ht
    · exact hsized hrank
    · exact hkeep _ (h.sized j t ht hrank)

/-- As far as nothing about its thread changes, a registration may change. -/
theorem Objects.put_client {r : State} (h : Objects r) {k : Nat} {s s' : Registration}
    (hs : r.registrations[k]? = some s) (r' : State)
    (hr : r'.registrations = r.registrations.set k s')
    (hbound : r'.kernel.bound = r.kernel.bound)
    (hlen : r'.kernel.objects.length = r.kernel.objects.length)
    (hkeep : ∀ o, r.kernel.Sized o → r'.kernel.Sized o) (hthread : s'.thread = s.thread)
    (hname : s'.name = s.name) (hhandle : s'.threadHandle = s.threadHandle) : Objects r' := by
  refine h.put hs r' hr hbound hlen hkeep (fun kind path => ?_) (fun kind => ?_)
    (fun _ _ => by rw [hhandle]) (fun hrank => h.opened k s hs (hthread ▸ hrank)) fun hrank => ?_
  · rw [Registration.HoldsAt, Registration.HoldsAt, hthread, hname]
  · rw [Registration.Has, Registration.Has, hthread, hname]
  · rw [hhandle]
    exact hkeep _ (h.sized k s hs (hthread ▸ hrank))

/-- The same before a thread is started. -/
theorem Objects.put_early {r : State} (h : Objects r) {k : Nat} {s s' : Registration}
    (hs : r.registrations[k]? = some s) (r' : State)
    (hr : r'.registrations = r.registrations.set k s') (hkernel : r'.kernel = r.kernel)
    (hrank : s.thread.rank ≤ 3) (hrank' : s'.thread.rank ≤ 3) : Objects r' := by
  have hhas : ∀ u : Registration, u.thread.rank ≤ 3 → ∀ kind, ¬ u.Has kind := by
    intro u hle kind ho
    have hb := (ThreadPc.rank_opening_bounds kind).1
    have hopened := ho.1
    unfold ThreadPc.Opened at hopened
    omega
  have hs' := hhas s hrank
  have hs'' := hhas s' hrank'
  exact h.put hs r' hr (by rw [hkernel]) (by rw [hkernel]) (fun o => by rw [hkernel]; exact id)
    (fun kind _ => iff_of_false (fun hh => hs'' kind hh.has) fun hh => hs' kind hh.has)
    (fun kind => iff_of_false (hs'' kind) (hs' kind)) (fun kind ho => absurd ho (hs' kind))
    (fun hr4 => by omega) fun hr5 => by omega

/-- Opening adds the object opened. -/
theorem ThreadPc.opened_next_opening (kind kind' : Kind) :
    (opening kind).next.Opened kind' ↔ (opening kind).Opened kind' ∨ kind' = kind := by
  unfold Opened
  cases kind <;> cases kind' <;> decide

theorem ThreadPc.holds_next_opening (kind kind' : Kind) :
    (opening kind).next.Holds kind' ↔ (opening kind).Holds kind' ∨ kind' = kind := by
  unfold Holds Opened
  cases kind <;> cases kind' <;> decide

/-- Unlinking takes one name away. -/
theorem ThreadPc.holds_next_unlinking (kind kind' : Kind) :
    (unlinking kind).next.Holds kind' ↔ (unlinking kind).Holds kind' ∧ kind' ≠ kind := by
  unfold Holds Opened
  cases kind <;> cases kind' <;> decide

/-- Handles stay open when a name goes. -/
theorem ThreadPc.opened_next_unlinking (kind kind' : Kind) :
    (unlinking kind).next.Opened kind' ↔ (unlinking kind).Opened kind' := by
  unfold Opened
  cases kind <;> cases kind' <;> decide

theorem ThreadPc.named_opening (kind : Kind) : (opening kind).Named := by
  cases kind <;> decide

theorem ThreadPc.rank_opening_sem {kind : Kind} (h : kind ≠ .shm) : 5 ≤ (opening kind).rank := by
  cases kind with
  | shm => exact absurd rfl h
  | _ => decide

theorem ThreadPc.named_unlinking (kind : Kind) : (unlinking kind).Named := by
  cases kind <;> decide

/-- The files of a session that is not yet unlinked are its own. -/
theorem Apart.eq_of_path {r : State} (h : Apart r) {k l : Nat} {s t : Registration}
    {kind kind' : Kind} {path : Name} (hs : r.registrations[k]? = some s)
    (ht : r.registrations[l]? = some t) (hsn : s.thread.Named) (htn : t.thread.Named)
    (hsp : kind.path s.name = some path) (htp : kind'.path t.name = some path) :
    k = l ∧ kind = kind' := by
  by_cases hkl : k = l
  · subst hkl
    obtain rfl := Option.some.inj (hs.symm.trans ht)
    exact ⟨rfl, (path_inj rfl hsp htp).1⟩
  · exact absurd htp (h k l s t kind kind' path hkl hs ht hsn htn hsp)

/-- About to open an object, a thread finds its file free. -/
theorem Objects.fresh {r : State} (h : Objects r) (hapart : Apart r) {k : Nat}
    {s : Registration} {kind : Kind} {path : Name} (hs : r.registrations[k]? = some s)
    (pc : s.thread = .opening kind) (hpath : kind.path s.name = some path) :
    r.kernel.bound path = none := by
  cases hb : r.kernel.bound path with
  | none => rfl
  | some o =>
    obtain ⟨l, t, kind', ht, hholds, -⟩ := h.bound _ _ hb
    have hsn : s.thread.Named := by
      rw [pc]
      exact ThreadPc.named_opening kind
    obtain ⟨rfl, rfl⟩ := hapart.eq_of_path hs ht hsn hholds.1.named hpath hholds.2
    obtain rfl := Option.some.inj (ht.symm.trans hs)
    have hself := hholds.1.1
    rw [pc] at hself
    exact absurd hself (Nat.lt_irrefl _)

/-- A thread opens an object: it creates a new one and holds it. -/
structure Opening (r r' : State) (k : Nat) (s s' : Registration) (kind : Kind) (path : Name) :
    Prop where
  before : r.registrations[k]? = some s
  pc : s.thread = .opening kind
  file : kind.path s.name = some path
  after : r'.registrations = r.registrations.set k s'
  name : s'.name = s.name
  thread : s'.thread = s.thread.next
  handle : s'.threadHandle =
    Function.update s.threadHandle kind r.kernel.objects.length
  bound : r'.kernel.bound = Function.update r.kernel.bound path (some r.kernel.objects.length)
  objects : r'.kernel.objects = r.kernel.objects ++ [⟨false, false, false⟩]

section Opening

variable {r r' : State} {k : Nat} {s s' : Registration} {kind : Kind} {path : Name}

theorem Opening.named (ho : Opening r r' k s s' kind path) : s.thread.Named := by
  rw [ho.pc]
  exact ThreadPc.named_opening kind

/-- Nothing is opened twice. -/
theorem Opening.not_opened (ho : Opening r r' k s s' kind path) : ¬s.thread.Opened kind := by
  rw [ho.pc]
  exact Nat.lt_irrefl _

theorem Opening.self (ho : Opening r r' k s s' kind path) :
    r'.registrations[k]? = some s' := by
  rw [ho.after]
  exact set_self ho.before

/-- The handles after an opening. -/
theorem Opening.has_iff (ho : Opening r r' k s s' kind path) (kind' : Kind) :
    s'.Has kind' ↔ s.Has kind' ∨ kind' = kind := by
  have hopened := ThreadPc.opened_next_opening kind kind'
  rw [Registration.Has, Registration.Has, ho.name, ho.thread, ho.pc, hopened, or_and_right]
  refine or_congr_right ⟨And.left, ?_⟩
  rintro rfl
  exact ⟨rfl, by rw [ho.file]; rfl⟩

/-- The names held after an opening. -/
theorem Opening.holdsAt_iff (ho : Opening r r' k s s' kind path) (kind' : Kind) (path' : Name) :
    s'.HoldsAt kind' path' ↔ s.HoldsAt kind' path' ∨ kind' = kind ∧ path' = path := by
  have hholds := ThreadPc.holds_next_opening kind kind'
  rw [Registration.HoldsAt, Registration.HoldsAt, ho.name, ho.thread, ho.pc, hholds, or_and_right]
  refine or_congr_right (and_congr_right ?_)
  rintro rfl
  rw [ho.file, Option.some.injEq, eq_comm]

/-- What the thread had opened before keeps its handle. -/
theorem Opening.handle_old (ho : Opening r r' k s s' kind path) {kind' : Kind}
    (hopened : s.thread.Opened kind') : s'.threadHandle kind' = s.threadHandle kind' := by
  rw [ho.handle]
  refine Function.update_of_ne ?_ ..
  rintro rfl
  exact ho.not_opened hopened

/-- The object opened is a new one. -/
theorem Opening.handle_new (ho : Opening r r' k s s' kind path) :
    s'.threadHandle kind = r.kernel.objects.length := by
  rw [ho.handle, Function.update_self]

theorem Opening.sized (ho : Opening r r' k s s' kind path) {o : Nat} (h : r.kernel.Sized o) :
    r'.kernel.Sized o := by
  unfold Kernel.Sized at h ⊢
  rw [ho.objects]
  by_cases hlt : o < r.kernel.objects.length
  · rwa [List.getElem?_append_left hlt]
  · rw [List.getElem?_eq_none (Nat.le_of_not_lt hlt)] at h
    cases h

/-- What a registration has opened is the new object, or was its own before. -/
theorem Opening.cases (ho : Opening r r' k s s' kind path) {l : Nat} {x : Registration} {κ : Kind}
    (hx : r'.registrations[l]? = some x) (hxo : x.Has κ) :
    l = k ∧ κ = kind ∧ x.threadHandle κ = r.kernel.objects.length ∨
      ∃ y, r.registrations[l]? = some y ∧ y.Has κ ∧ x.threadHandle κ = y.threadHandle κ := by
  rw [ho.after] at hx
  obtain ⟨rfl, rfl⟩ | ⟨-, hx⟩ := set_eq_some hx
  · obtain hold | rfl := (ho.has_iff κ).mp hxo
    · exact .inr ⟨s, ho.before, hold, ho.handle_old hold.1⟩
    · exact .inl ⟨rfl, rfl, ho.handle_new⟩
  · exact .inr ⟨x, hx, hxo, rfl⟩

/-- The name that is bound now belongs to the thread; the others belong to whom they did. -/
theorem Opening.bound_held (ho : Opening r r' k s s' kind path) (h : Objects r) {path' : Name}
    {o : Nat} (hp : r'.kernel.bound path' = some o) :
    ∃ (j : Nat) (t : Registration) (kind' : Kind), r'.registrations[j]? = some t ∧
      t.HoldsAt kind' path' ∧ t.threadHandle kind' = o := by
  rw [ho.bound, Function.update_apply] at hp
  split_ifs at hp with hpath
  · exact ⟨k, s', kind, ho.self, (ho.holdsAt_iff kind path').mpr (.inr ⟨rfl, hpath⟩),
      ho.handle_new.trans (Option.some.inj hp)⟩
  · obtain ⟨j, t, kind', ht, hh, hto⟩ := h.bound path' o hp
    by_cases hjk : j = k
    · subst hjk
      obtain rfl := Option.some.inj (ht.symm.trans ho.before)
      exact ⟨j, s', kind', ho.self, (ho.holdsAt_iff kind' path').mpr (.inl hh),
        (ho.handle_old hh.1.1).trans hto⟩
    · exact ⟨j, t, kind', by rw [ho.after]; exact set_ne hjk ht, hh, hto⟩

/-- A name held leads to the object of its holder, the new one included. -/
theorem Opening.held_bound (ho : Opening r r' k s s' kind path) (h : Objects r) (hapart : Apart r)
    {j : Nat} {t : Registration} {kind' : Kind} {path' : Name}
    (ht : r'.registrations[j]? = some t) (hh : t.HoldsAt kind' path') :
    r'.kernel.bound path' = some (t.threadHandle kind') := by
  rw [ho.after] at ht
  obtain ⟨rfl, rfl⟩ | ⟨hjk, ht⟩ := set_eq_some ht
  · obtain hh | ⟨rfl, rfl⟩ := (ho.holdsAt_iff kind' path').mp hh
    · have hne : path' ≠ path := by
        rintro rfl
        obtain ⟨-, rfl⟩ := hapart.eq_of_path ho.before ho.before ho.named ho.named hh.2 ho.file
        exact ho.not_opened hh.1.1
      rw [ho.handle_old hh.1.1, ho.bound, Function.update_of_ne hne]
      exact h.holds j s kind' path' ho.before hh
    · rw [ho.handle_new, ho.bound, Function.update_self]
  · have hne : path' ≠ path := by
      rintro rfl
      exact hjk (hapart.eq_of_path ht ho.before hh.1.named ho.named hh.2 ho.file).1
    rw [ho.bound, Function.update_of_ne hne]
    exact h.holds j t kind' path' ht hh

/-- Two handles are two objects, the new one included. -/
theorem Opening.apart (ho : Opening r r' k s s' kind path) (h : Objects r) {i j : Nat}
    {t v : Registration} {kind' kind'' : Kind} (hij : i ≠ j ∨ kind' ≠ kind'')
    (ht : r'.registrations[i]? = some t) (hv : r'.registrations[j]? = some v)
    (hto : t.Has kind') (hvo : v.Has kind'') : t.threadHandle kind' ≠ v.threadHandle kind'' := by
  -- each of the two objects is the new one or one from before, which lies below it
  obtain ⟨hi, hκ, hnew⟩ | ⟨y, hy, hyo, hold⟩ := ho.cases ht hto
  · obtain ⟨hj, hκ', -⟩ | ⟨z, hz, hzo, hold'⟩ := ho.cases hv hvo
    · obtain hij | hkind := hij
      · exact absurd (hi.trans hj.symm) hij
      · exact absurd (hκ.trans hκ'.symm) hkind
    · have hlt := h.valid j z kind'' hz hzo
      omega
  · obtain ⟨-, -, hnew⟩ | ⟨z, hz, hzo, hold'⟩ := ho.cases hv hvo
    · have hlt := h.valid i y kind' hy hyo
      omega
    · rw [hold, hold']
      exact h.apart i j y z kind' kind'' hij hy hz hyo hzo

/-- A thread that has its memory sized had it before it opened a semaphore. -/
theorem Opening.sized_shm (ho : Opening r r' k s s' kind path) (h : Objects r)
    (hrank : 5 ≤ s'.thread.rank) : r'.kernel.Sized (s'.threadHandle .shm) := by
  have hshm : kind ≠ .shm := by
    rintro rfl
    rw [ho.thread, ho.pc] at hrank
    exact absurd hrank (by decide)
  have hrank5 : 5 ≤ s.thread.rank := by
    rw [ho.pc]
    exact ThreadPc.rank_opening_sem hshm
  rw [ho.handle_old (h.opened k s ho.before (by omega)).1]
  exact ho.sized (h.sized k s ho.before hrank5)

/-- An opening keeps the objects apart. -/
theorem Objects.opening (h : Objects r) (hapart : Apart r)
    (ho : Opening r r' k s s' kind path) : Objects r' where
  bound _ _ hp := ho.bound_held h hp
  holds _ _ _ _ ht hh := ho.held_bound h hapart ht hh
  valid j t kind' ht hto := by
    rw [ho.objects, List.length_append, List.length_singleton]
    obtain ⟨-, -, hnew⟩ | ⟨y, hy, hyo, hold⟩ := ho.cases ht hto
    · rw [hnew]
      exact Nat.lt_succ_self _
    · rw [hold]
      exact Nat.lt_succ_of_lt (h.valid j y kind' hy hyo)
  apart _ _ _ _ _ _ hij ht hv hto hvo := ho.apart h hij ht hv hto hvo
  opened j t ht hrank := by
    rw [ho.after] at ht
    obtain ⟨rfl, rfl⟩ | ⟨-, ht⟩ := set_eq_some ht
    · refine (ho.has_iff .shm).mpr ?_
      by_cases hshm : kind = .shm
      · exact .inr hshm.symm
      · have hrank5 := ThreadPc.rank_opening_sem hshm
        rw [← ho.pc] at hrank5
        exact .inl (h.opened j s ho.before (by omega))
    · exact h.opened j t ht hrank
  sized j t ht hrank := by
    rw [ho.after] at ht
    obtain ⟨rfl, rfl⟩ | ⟨-, ht⟩ := set_eq_some ht
    · exact ho.sized_shm h hrank
    · exact ho.sized (h.sized j t ht hrank)

/-- A semaphore whose name is refused is nobody's object. -/
theorem Objects.refused (h : Objects r) (hs : r.registrations[k]? = some s)
    (pc : s.thread = .opening kind) (hkind : kind ≠ .shm) (hpath : kind.path s.name = none)
    (hr : r'.registrations = r.registrations.set k { s with thread := s.thread.next })
    (hkernel : r'.kernel = r.kernel) : Objects r' := by
  have hrank5 := ThreadPc.rank_opening_sem hkind
  rw [← pc] at hrank5
  have hname : ({ s with thread := s.thread.next } : Registration).name = s.name := rfl
  refine h.put hs r' hr (by rw [hkernel]) (by rw [hkernel]) (fun o ho => by rw [hkernel]; exact ho)
    (fun kind' path => ?_) (fun kind' => ?_) (fun _ _ => rfl)
    (fun _ => h.opened k s hs (by omega)) fun _ => by rw [hkernel]; exact h.sized k s hs hrank5
  · have hholds := ThreadPc.holds_next_opening kind kind'
    rw [Registration.HoldsAt, Registration.HoldsAt, hname]
    simp only [pc, hholds, or_and_right]
    refine or_iff_left ?_
    rintro ⟨rfl, hp⟩
    rw [hpath] at hp
    cases hp
  · have hopened := ThreadPc.opened_next_opening kind kind'
    rw [Registration.Has, Registration.Has, hname]
    simp only [pc, hopened, or_and_right]
    refine or_iff_left ?_
    rintro ⟨rfl, hp⟩
    rw [hpath] at hp
    cases hp

end Opening

/-- A thread unlinks a name and holds its object no longer. -/
structure Unlinking (r r' : State) (k : Nat) (s s' : Registration) (kind : Kind) (path : Name) :
    Prop where
  before : r.registrations[k]? = some s
  pc : s.thread = .unlinking kind
  file : kind.path s.name = some path
  after : r'.registrations = r.registrations.set k s'
  name : s'.name = s.name
  thread : s'.thread = s.thread.next
  handle : s'.threadHandle = s.threadHandle
  bound : r'.kernel.bound = Function.update r.kernel.bound path none
  objects : r'.kernel.objects = r.kernel.objects

section Unlinking

variable {r r' : State} {k : Nat} {s s' : Registration} {kind : Kind} {path : Name}

theorem Unlinking.named (hu : Unlinking r r' k s s' kind path) : s.thread.Named := by
  rw [hu.pc]
  exact ThreadPc.named_unlinking kind

/-- The names held after an unlinking. -/
theorem Unlinking.holdsAt_iff (hu : Unlinking r r' k s s' kind path) (kind' : Kind)
    (path' : Name) : s'.HoldsAt kind' path' ↔ s.HoldsAt kind' path' ∧ kind' ≠ kind := by
  have hholds := ThreadPc.holds_next_unlinking kind kind'
  rw [Registration.HoldsAt, Registration.HoldsAt, hu.name, hu.thread, hu.pc, hholds, and_right_comm]

/-- The handles after an unlinking. -/
theorem Unlinking.has_iff (hu : Unlinking r r' k s s' kind path) (kind' : Kind) :
    s'.Has kind' ↔ s.Has kind' := by
  have hopened := ThreadPc.opened_next_unlinking kind kind'
  rw [Registration.Has, Registration.Has, hu.name, hu.thread, hu.pc, hopened]

theorem Unlinking.sized (hu : Unlinking r r' k s s' kind path) {o : Nat} (h : r.kernel.Sized o) :
    r'.kernel.Sized o := by
  unfold Kernel.Sized at h ⊢
  rwa [hu.objects]

/-- Every registration has opened what it had. -/
theorem Unlinking.back (hu : Unlinking r r' k s s' kind path) {j : Nat} {t : Registration}
    (ht : r'.registrations[j]? = some t) : ∃ u, r.registrations[j]? = some u ∧
      (∀ κ, t.Has κ ↔ u.Has κ) ∧ t.threadHandle = u.threadHandle := by
  rw [hu.after] at ht
  obtain ⟨rfl, rfl⟩ | ⟨-, ht⟩ := set_eq_some ht
  · exact ⟨s, hu.before, hu.has_iff, hu.handle⟩
  · exact ⟨t, ht, fun _ => Iff.rfl, rfl⟩

/-- A name still bound is another one, and belongs to whom it did. -/
theorem Unlinking.bound_held (hu : Unlinking r r' k s s' kind path) (h : Objects r) {path' : Name}
    {o : Nat} (hp : r'.kernel.bound path' = some o) :
    ∃ (j : Nat) (t : Registration) (kind' : Kind), r'.registrations[j]? = some t ∧
      t.HoldsAt kind' path' ∧ t.threadHandle kind' = o := by
  rw [hu.bound, Function.update_apply] at hp
  split_ifs at hp with hpath
  obtain ⟨j, t, kind', ht, hh, ho⟩ := h.bound path' o hp
  by_cases hjk : j = k
  · subst hjk
    obtain rfl := Option.some.inj (ht.symm.trans hu.before)
    have hne : kind' ≠ kind := by
      rintro rfl
      exact hpath (Option.some.inj (hh.2.symm.trans hu.file))
    exact ⟨j, s', kind', by rw [hu.after]; exact set_self hu.before,
      (hu.holdsAt_iff kind' path').mpr ⟨hh, hne⟩, by rw [hu.handle, ho]⟩
  · exact ⟨j, t, kind', by rw [hu.after]; exact set_ne hjk ht, hh, ho⟩

/-- The names still held lead where they led. -/
theorem Unlinking.held_bound (hu : Unlinking r r' k s s' kind path) (h : Objects r)
    (hapart : Apart r) {j : Nat} {t : Registration} {kind' : Kind} {path' : Name}
    (ht : r'.registrations[j]? = some t) (hh : t.HoldsAt kind' path') :
    r'.kernel.bound path' = some (t.threadHandle kind') := by
  rw [hu.after] at ht
  obtain ⟨rfl, rfl⟩ | ⟨hjk, ht⟩ := set_eq_some ht
  · obtain ⟨hh, hne⟩ := (hu.holdsAt_iff kind' path').mp hh
    have hpath : path' ≠ path := by
      rintro rfl
      exact hne (hapart.eq_of_path hu.before hu.before hu.named hu.named hh.2 hu.file).2
    rw [hu.handle, hu.bound, Function.update_of_ne hpath]
    exact h.holds j s kind' path' hu.before hh
  · have hpath : path' ≠ path := by
      rintro rfl
      exact hjk (hapart.eq_of_path ht hu.before hh.1.named hu.named hh.2 hu.file).1
    rw [hu.bound, Function.update_of_ne hpath]
    exact h.holds j t kind' path' ht hh

/-- An unlinking keeps the objects apart. -/
theorem Objects.unlinking (h : Objects r) (hapart : Apart r)
    (hu : Unlinking r r' k s s' kind path) : Objects r' where
  bound _ _ hp := hu.bound_held h hp
  holds _ _ _ _ ht hh := hu.held_bound h hapart ht hh
  valid j t kind' ht ho := by
    obtain ⟨u, hu', huo, huh⟩ := hu.back ht
    rw [hu.objects, huh]
    exact h.valid j u kind' hu' ((huo kind').mp ho)
  apart i j t v kind' kind'' hij ht hv hto hvo := by
    obtain ⟨u, hu', huo, huh⟩ := hu.back ht
    obtain ⟨x, hx, hxo, hxh⟩ := hu.back hv
    rw [huh, hxh]
    exact h.apart i j u x kind' kind'' hij hu' hx ((huo kind').mp hto) ((hxo kind'').mp hvo)
  opened j t ht hrank := by
    rw [hu.after] at ht
    obtain ⟨rfl, rfl⟩ | ⟨-, ht⟩ := set_eq_some ht
    · have hb := (ThreadPc.rank_unlinking_bounds kind).1
      rw [← hu.pc] at hb
      exact (hu.has_iff .shm).mpr (h.opened j s hu.before (by omega))
    · exact h.opened j t ht hrank
  sized j t ht hrank := by
    rw [hu.after] at ht
    obtain ⟨rfl, rfl⟩ | ⟨-, ht⟩ := set_eq_some ht
    · have hb := (ThreadPc.rank_unlinking_bounds kind).1
      rw [← hu.pc] at hb
      rw [hu.handle]
      exact hu.sized (h.sized j s hu.before (by omega))
    · exact hu.sized (h.sized j t ht hrank)

/-- There is nothing to unlink under a name that was refused. -/
theorem Objects.unlinking_refused (h : Objects r) (hs : r.registrations[k]? = some s)
    (pc : s.thread = .unlinking kind) (hpath : kind.path s.name = none)
    (hr : r'.registrations = r.registrations.set k { s with thread := s.thread.next })
    (hkernel : r'.kernel = r.kernel) : Objects r' := by
  have hb := (ThreadPc.rank_unlinking_bounds kind).1
  rw [← pc] at hb
  have hname : ({ s with thread := s.thread.next } : Registration).name = s.name := rfl
  refine h.put hs r' hr (by rw [hkernel]) (by rw [hkernel]) (fun o ho => by rw [hkernel]; exact ho)
    (fun kind' path => ?_) (fun kind' => ?_) (fun _ _ => rfl)
    (fun _ => h.opened k s hs (by omega))
    fun _ => by rw [hkernel]; exact h.sized k s hs (by omega)
  · have hholds := ThreadPc.holds_next_unlinking kind kind'
    rw [Registration.HoldsAt, Registration.HoldsAt, hname]
    simp only [pc, hholds]
    refine and_congr_left fun hp => and_iff_left ?_
    rintro rfl
    rw [hpath] at hp
    cases hp
  · have hopened := ThreadPc.opened_next_unlinking kind kind'
    rw [Registration.Has, Registration.Has, hname]
    simp only [pc, hopened]

end Unlinking

/-- Moves of the listener alone. -/
theorem Objects.listener {r : State} (h : Objects r) (r' : State)
    (hr : r'.registrations = r.registrations) (hkernel : r'.kernel = r.kernel) : Objects r' := by
  refine ⟨?_, ?_, ?_, ?_, ?_, ?_⟩ <;> rw [hr]
  · rw [hkernel]
    exact h.bound
  · rw [hkernel]
    exact h.holds
  · rw [hkernel]
    exact h.valid
  · exact h.apart
  · exact h.opened
  · rw [hkernel]
    exact h.sized

/-- A registration comes without objects. -/
theorem Objects.accept {r : State} (h : Objects r) {s : Registration}
    (hthread : s.thread = .unregistered) (r' : State)
    (hr : r'.registrations = r.registrations ++ [s]) (hkernel : r'.kernel = r.kernel) :
    Objects r' := by
  have hback : ∀ (j : Nat) (t : Registration), r'.registrations[j]? = some t →
      1 ≤ t.thread.rank → r.registrations[j]? = some t := by
    intro j t ht hrank
    rw [hr] at ht
    obtain ⟨-, rfl⟩ | ht := concat_eq_some ht
    · rw [hthread] at hrank
      exact absurd hrank (by decide)
    · exact ht
  have hopened : ∀ {t : Registration} {kind : Kind}, t.Has kind → 1 ≤ t.thread.rank := by
    intro t kind ho
    have hlt := ho.1
    unfold ThreadPc.Opened at hlt
    omega
  refine ⟨fun path o hp => ?_, fun j t kind path ht hh => ?_, fun j t kind ht ho => ?_,
    fun i j t v kind' kind'' hij ht hv hto hvo => ?_, fun j t ht hrank => ?_,
    fun j t ht hrank => ?_⟩
  · obtain ⟨j, t, kind, ht, hrest⟩ := h.bound path o (hkernel ▸ hp)
    exact ⟨j, t, kind, by rw [hr]; exact concat_of_some ht, hrest⟩
  · rw [hkernel]
    exact h.holds j t kind path (hback j t ht (hopened hh.has)) hh
  · rw [hkernel]
    exact h.valid j t kind (hback j t ht (hopened ho)) ho
  · exact h.apart i j t v kind' kind'' hij (hback i t ht (hopened hto))
      (hback j v hv (hopened hvo)) hto hvo
  · exact h.opened j t (hback j t ht (by omega)) hrank
  · rw [hkernel]
    exact h.sized j t (hback j t ht (by omega)) hrank

/-- Changing an object otherwise leaves its size. -/
theorem Kernel.Sized.modify {k : Kernel} {o p : Nat} {f : Object → Object}
    (hf : ∀ x : Object, (f x).sized = x.sized) (h : k.Sized o) : (k.modify p f).Sized o :=
  (any_modify hf).trans h

/-- `ftruncate` sizes one object and leaves the sizes of the others. -/
theorem Kernel.Sized.ftruncate {k : Kernel} {o p : Nat}
    (h : k.Sized o ∨ o = p ∧ o < k.objects.length) :
    (k.modify p fun x => { x with sized := true }).Sized o := by
  have hget : ∀ x : Object, k.objects[o]? = some x → (o = p ∨ x.sized = true) →
      (k.modify p fun x => { x with sized := true }).Sized o := by
    intro x hx hor
    unfold Sized Kernel.modify
    rw [List.getElem?_modify, hx]
    by_cases hop : p = o
    · simp [hop]
    · obtain rfl | hs := hor
      · exact absurd rfl hop
      · simp [hop, hs]
  obtain h | ⟨rfl, hlt⟩ := h
  · unfold Sized at h
    cases hx : k.objects[o]? with
    | none =>
      rw [hx] at h
      cases h
    | some x =>
      rw [hx] at h
      exact hget x hx (.inr h)
  · exact hget _ (List.getElem?_eq_getElem hlt) (.inl rfl)

/-- Behind the opening of its objects a thread keeps what it holds. -/
theorem ThreadPc.holds_next {pc : ThreadPc} (hrank : 3 ≤ pc.rank)
    (hopening : ∀ kind, pc ≠ .opening kind) (hunlinking : ∀ kind, pc ≠ .unlinking kind)
    (kind : Kind) :
    (pc.next.Holds kind ↔ pc.Holds kind) ∧ (pc.next.Opened kind ↔ pc.Opened kind) := by
  unfold Holds Opened
  cases pc with
  | opening kind => exact absurd rfl (hopening kind)
  | unlinking kind => exact absurd rfl (hunlinking kind)
  | unregistered => exact absurd hrank (by decide)
  | registered => exact absurd hrank (by decide)
  | numbered => exact absurd hrank (by decide)
  | _ => cases kind <;> decide

/-- A statement of a thread keeps the kernel and the threads in agreement. -/
theorem Objects.thread {r : State} (h : Objects r) (hapart : Apart r) {k : Nat}
    {s : Registration} {handle : Kind → Nat} {kernel : Kernel}
    {record : Name → Option (Int × Nat)} {locked : Bool} (hs : r.registrations[k]? = some s)
    (hrank : 3 ≤ s.thread.rank) (effect : ThreadEffect r s handle kernel record locked)
    (r' : State) (hkernel : r'.kernel = kernel)
    (hr : r'.registrations =
      r.registrations.set k { s with thread := s.thread.next, threadHandle := handle }) :
    Objects r' := by
  -- behind the opening of the shared memory, neither opening nor unlinking
  have hquiet : ∀ pc, s.thread = pc → handle = s.threadHandle → 4 ≤ pc.rank →
      (∀ kind, pc ≠ .opening kind) → (∀ kind, pc ≠ .unlinking kind) →
      r'.kernel.bound = r.kernel.bound →
      r'.kernel.objects.length = r.kernel.objects.length →
      (∀ o, r.kernel.Sized o → r'.kernel.Sized o) →
      (5 ≤ s.thread.next.rank → r'.kernel.Sized (s.threadHandle .shm)) → Objects r' := by
    intro pc hpc hhandle hrank4 hopening hunlinking hbound hlen hkeep hsized
    subst hpc
    have hnext := ThreadPc.holds_next hrank hopening hunlinking
    refine h.put hs r' hr hbound hlen hkeep (fun kind path => ?_) (fun kind => ?_)
      (fun kind _ => by rw [hhandle]) (fun _ => h.opened k s hs hrank4)
      (by rw [hhandle]; exact hsized)
    · exact and_congr_left fun _ => (hnext kind).1
    · exact and_congr_left fun _ => (hnext kind).2
  have hstay : ∀ pc, s.thread = pc → handle = s.threadHandle →
      (∀ kind, pc ≠ .opening kind) → (∀ kind, pc ≠ .unlinking kind) → 5 ≤ pc.rank →
      r'.kernel.bound = r.kernel.bound →
      r'.kernel.objects.length = r.kernel.objects.length →
      (∀ o, r.kernel.Sized o → r'.kernel.Sized o) → Objects r' := by
    intro pc hpc hhandle hopening hunlinking hrank5 hbound hlen hkeep
    exact hquiet pc hpc hhandle (by omega) hopening hunlinking hbound hlen hkeep
      fun _ => hkeep _ (h.sized k s hs (hpc ▸ hrank5))
  cases effect with
  | @opening kind path pc hpath =>
    have hfree : r.kernel.openCreate path =
        ({ bound := Function.update r.kernel.bound path (some r.kernel.objects.length)
           objects := r.kernel.objects ++ [⟨false, false, false⟩] },
          r.kernel.objects.length) := by
      rw [Kernel.openCreate, h.fresh hapart hs pc hpath]
    rw [hfree] at hkernel hr
    exact h.opening hapart
      ⟨hs, pc, hpath, hr, rfl, rfl, rfl, by rw [hkernel], by rw [hkernel]⟩
  | refused pc hkind hpath => exact h.refused hs pc hkind hpath hr hkernel
  | ftruncate pc =>
    have hopen : s.Has .shm := h.opened k s hs (by rw [pc]; decide)
    refine hquiet _ pc rfl (by decide) (by simp) (by simp) (by rw [hkernel]; rfl)
      (by rw [hkernel]; exact List.length_modify ..) (fun o ho => ?_) fun _ => ?_ <;> rw [hkernel]
    · exact Kernel.Sized.ftruncate (.inl ho)
    · exact Kernel.Sized.ftruncate (.inr ⟨rfl, h.valid k s .shm hs hopen⟩)
  | serving pc closing =>
    refine hstay _ pc rfl (by simp) (by simp) (by decide) (by rw [hkernel]; rfl)
      (by rw [hkernel]; exact List.length_modify ..) fun o ho => ?_
    rw [hkernel]
    exact ho.modify fun _ => rfl
  | @unlinking kind pc =>
    cases hpath : kind.path s.name with
    | none =>
      rw [hpath] at hkernel
      exact h.unlinking_refused hs pc hpath hr hkernel
    | some path =>
      rw [hpath] at hkernel
      exact h.unlinking hapart
        ⟨hs, pc, hpath, hr, rfl, rfl, rfl, by rw [hkernel]; rfl, by rw [hkernel]; rfl⟩
  | locking pc =>
    exact hstay _ pc rfl (by simp) (by simp) (by decide) (by rw [hkernel]) (by rw [hkernel])
      fun o ho => hkernel ▸ ho
  | decrementing pc hchs =>
    exact hstay _ pc rfl (by simp) (by simp) (by decide) (by rw [hkernel]) (by rw [hkernel])
      fun o ho => hkernel ▸ ho
  | unlocking pc =>
    exact hstay _ pc rfl (by simp) (by simp) (by decide) (by rw [hkernel]) (by rw [hkernel])
      fun o ho => hkernel ▸ ho

/-- Every move keeps the kernel and the threads in agreement. -/
theorem Objects.move {r r' : State} (h : Objects r) (hsync : Sync r) (hapart : Apart r)
    (hm : Move r r') : Objects r' := by
  cases hm with
  | idle => exact h
  | exit hs hnamed hpath => exact h.listener _ rfl rfl
  | accept pool hl => exact h.accept rfl _ rfl rfl
  | find hl hs => exact h.listener _ rfl rfl
  | lock hl => exact h.listener _ rfl rfl
  | insert hl hs =>
    have hthread := hsync.thread_eq (by rw [hl]; rfl) hs
    exact h.put_early hs _ rfl rfl (by rw [hthread]; decide)
      (by decide : ThreadPc.rank (.registered) ≤ 3)
  | increment hl hs =>
    have hthread := hsync.thread_eq (by rw [hl]; rfl) hs
    exact h.put_early hs _ rfl rfl (by rw [hthread]; decide)
      (by decide : ThreadPc.rank (.registered) ≤ 3)
  | number hl hs =>
    have hthread := hsync.thread_eq (by rw [hl]; rfl) hs
    exact h.put_early hs _ rfl rfl (by rw [hthread]; decide)
      (by decide : ThreadPc.rank (.numbered) ≤ 3)
  | unlock hl => exact h.listener _ rfl rfl
  | newCHS hl hs => exact h.listener _ rfl rfl
  | adjust hl hs hc => exact h.listener _ rfl rfl
  | spawn hl hs hc =>
    have hthread := hsync.thread_eq (by rw [hl]; rfl) hs
    exact h.put_early hs _ rfl rfl (by rw [hthread]; decide)
      (by decide : ThreadPc.rank (.opening .shm) ≤ 3)
  | send pid hl hs => exact h.put_client hs _ rfl rfl rfl (fun _ => id) rfl rfl rfl
  | thread hs hrank hdone effect => exact h.thread hapart hs hrank effect _ rfl rfl
  | attach hs pc bound => exact h.put_client hs _ rfl rfl rfl (fun _ => id) rfl rfl rfl
  | destroy hs pc =>
    refine h.put_client hs _ rfl rfl ?_ (fun o ho => ?_) rfl rfl rfl
    · simp [Kernel.modify]
    · refine Kernel.Sized.modify (fun _ => rfl) (Kernel.Sized.modify (fun _ => rfl) ho)

end CachelibArchive.ClientServer.Registry
