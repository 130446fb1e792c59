import CachelibArchive.ClientServer.RegistrySafety
import CachelibArchive.Core.Schedule
import Mathlib.Data.List.Count
import Mathlib.Data.Nat.Pairing

/-!
# Progress of a registration

The lock is spun for, and whoever holds it may take it again before the others come. The listener
gets it all the same: while it spins no client is accepted, and a thread takes the lock once. So it
replies to every client that it accepts, the thread it has spawned creates its objects, and the
client finds them. All of it takes names that the kernel accepts: one that it refuses ends the
server.
-/

namespace CachelibArchive.ClientServer.Registry

variable {r r' : State} {k j : Nat} {s s' : Registration}

/-- A client passes one statement at a time. -/
theorem ClientPc.rank_next {pc : ClientPc} (h : pc ≠ .closed) : pc.next.rank = pc.rank + 1 := by
  cases pc with
  | closed => exact absurd rfl h
  | opening kind => cases kind <;> rfl
  | _ => rfl

/-- What a move makes of the registrations. -/
inductive Onward (l : List Registration) : List Registration → Prop where
  | same : Onward l l
  | added (s : Registration) (hs : s.client = .awaiting) (hrank : s.thread = .unregistered) :
      Onward l (l ++ [s])
  | changed {k : Nat} {s s' : Registration} (hs : l[k]? = some s)
      (hthread : s.thread.rank ≤ s'.thread.rank) (hclient : s.client.rank ≤ s'.client.rank) :
      Onward l (l.set k s')

/-- Threads and clients only go on. -/
theorem Move.onward (hm : Move r r') (hsync : Sync r) :
    Onward r.registrations r'.registrations := by
  have hthread : ∀ {k pc s}, r.listener.stage = some (k, pc) → r.registrations[k]? = some s →
      s.thread = pc := hsync.thread_eq
  cases hm with
  | accept pool hl => exact .added _ rfl rfl
  | exit hs hnamed hpath => exact .same
  | idle | find hl hs | lock hl | unlock hl | newCHS hl hs | adjust hl hs hc => exact .same
  | insert hl hs | increment hl hs | number hl hs | spawn hl hs hc =>
    refine .changed hs ?_ (Nat.le_refl _)
    rw [hthread (by rw [hl]; rfl) hs]
    dsimp only
    decide
  | send pid hl hs =>
    obtain ⟨t, ht, -, hc⟩ := hsync.sending _ hl
    cases ht.symm.trans hs
    refine .changed hs (Nat.le_refl _) ?_
    rw [hc]
    dsimp only
    decide
  | thread hs hrank hdone effect =>
    refine .changed hs ?_ (Nat.le_refl _)
    rw [ThreadPc.rank_next hdone]
    exact Nat.le_succ _
  | attach hs pc bound =>
    refine .changed hs (Nat.le_refl _) ?_
    rw [ClientPc.rank_next (by rw [pc]; simp)]
    exact Nat.le_succ _
  | destroy hs pc =>
    refine .changed hs (Nat.le_refl _) ?_
    rw [ClientPc.rank_next (by rw [pc]; simp)]
    exact Nat.le_succ _

namespace ListenerPc

/-- The registration the listener handles. -/
def subject : ListenerPc → Option Nat
  | .accept => none
  | .find k | .insert k | .increment k | .newCHS k | .adjust k | .spawn k | .send k => some k
  | .lock _ k | .number _ k | .unlock _ k => some k

/-- Statements to the end of the handling. -/
def left : ListenerPc → Nat
  | .accept => 0
  | .send _ => 1
  | .spawn _ => 2
  | .adjust _ => 3
  | .newCHS _ => 4
  | .unlock .. => 5
  | .number .. => 6
  | .insert _ | .increment _ => 7
  | .lock .. => 8
  | .find _ => 9

/-- Between taking the lock and releasing it. -/
def HoldsLock : ListenerPc → Prop
  | .insert _ | .increment _ | .number .. | .unlock .. => True
  | _ => False

end ListenerPc

/-- Between taking the lock and releasing it. -/
def ThreadPc.HoldsLock (pc : ThreadPc) : Prop := pc = .decrementing ∨ pc = .unlocking

/-- Some thread holds the lock. -/
def State.HeldByThread (r : State) : Prop :=
  ∃ (k : Nat) (s : Registration), r.registrations[k]? = some s ∧ s.thread.HoldsLock

/-- Registrations that were given a number. -/
def State.numbered (r : State) : Nat :=
  r.registrations.countP fun s => decide (2 ≤ s.thread.rank)

/-- What the handling of a registration relies on. -/
structure Attended (r : State) : Prop where
  /-- The listener handles the latest registration. -/
  latest : ∀ k, r.listener.subject = some k → r.registrations.length = k + 1
  /-- A client is waiting for its reply only while its registration is handled. -/
  awaiting : ∀ (k : Nat) (s : Registration), r.registrations[k]? = some s →
    s.client = .awaiting → r.listener.subject = some k
  /-- Somebody holds a lock that is taken. -/
  held : r.locked = true → r.listener.HoldsLock ∨ r.HeldByThread
  /-- Numbers are counted up by registrations. -/
  number : ∀ pool, (r.record pool).2 ≤ r.numbered

/-- Replacing a registration moves the count by what it is counted for. -/
theorem numbered_set (hs : r.registrations[k]? = some s)
    (hr : r'.registrations = r.registrations.set k s') :
    r'.numbered + (if 2 ≤ s.thread.rank then 1 else 0) =
      r.numbered + if 2 ≤ s'.thread.rank then 1 else 0 := by
  obtain ⟨hlt, heq⟩ := List.getElem?_eq_some_iff.mp hs
  have hpos : (if 2 ≤ s.thread.rank then 1 else 0) ≤ r.numbered := by
    split_ifs with hc
    · exact List.countP_pos_iff.mpr ⟨s, List.mem_of_getElem? hs, by simpa using hc⟩
    · exact Nat.zero_le _
  have hset := List.countP_set (p := fun s => decide (2 ≤ s.thread.rank)) (a := s') hlt
  simp only [heq, decide_eq_true_eq] at hset
  unfold State.numbered at hpos ⊢
  rw [hr, hset]
  omega

/-- The thread that takes its number is one more. -/
theorem numbered_succ (hs : r.registrations[k]? = some s)
    (hr : r'.registrations = r.registrations.set k s') (hlow : s.thread.rank ≤ 1)
    (hhigh : 2 ≤ s'.thread.rank) : r'.numbered = r.numbered + 1 := by
  have hset := numbered_set hs hr
  rwa [if_neg (by omega), if_pos hhigh] at hset

/-- What was numbered stays so. -/
theorem Onward.numbered_le (h : Onward r.registrations r'.registrations) :
    r.numbered ≤ r'.numbered := by
  generalize hl : r'.registrations = l at h
  cases h with
  | same =>
    rw [State.numbered, State.numbered, hl]
  | added s hs hrank =>
    rw [State.numbered, State.numbered, hl, List.countP_append]
    exact Nat.le_add_right _ _
  | changed hs hthread hclient =>
    have hset := numbered_set hs hl
    split_ifs at hset <;> omega

/-- A thread that holds the lock stays so while another registration changes. -/
theorem State.HeldByThread.set (h : r.HeldByThread) (hs : r.registrations[k]? = some s)
    (r' : State) (hr : r'.registrations = r.registrations.set k s')
    (hkeep : s.thread.HoldsLock → s'.thread.HoldsLock) : r'.HeldByThread := by
  obtain ⟨j, t, ht, hholds⟩ := h
  by_cases hjk : j = k
  · subst hjk
    cases hs.symm.trans ht
    exact ⟨j, s', by rw [hr]; exact set_self hs, hkeep hholds⟩
  · exact ⟨j, t, by rw [hr]; exact set_ne hjk ht, hholds⟩

/-- Moves of the listener that leave the registrations and the records alone. -/
theorem Attended.listener (h : Attended r) (r' : State)
    (hr : r'.registrations = r.registrations) (hrec : r'.poolRecord = r.poolRecord)
    (hsubject : r'.listener.subject = r.listener.subject)
    (hheld : r'.locked = true → r'.listener.HoldsLock ∨ r.HeldByThread) : Attended r' := by
  refine ⟨?_, ?_, ?_, fun pool => ?_⟩
  · rw [hsubject, hr]
    exact h.latest
  · rw [hsubject, hr]
    exact h.awaiting
  · rw [State.HeldByThread, hr]
    exact hheld
  · rw [State.record, hrec, State.numbered, hr]
    exact h.number pool

/-- A registration changes and goes on being handled, or not. -/
theorem Attended.put (h : Attended r) (hs : r.registrations[k]? = some s) (r' : State)
    (hr : r'.registrations = r.registrations.set k s')
    (hsubject : r'.listener.subject = r.listener.subject)
    (hc : s'.client = .awaiting → s.client = .awaiting)
    (hheld : r'.locked = true → r'.listener.HoldsLock ∨ r'.HeldByThread)
    (hnumber : ∀ pool, (r'.record pool).2 ≤ r'.numbered) : Attended r' := by
  refine ⟨fun j hj => ?_, fun j t ht hawait => ?_, hheld, hnumber⟩
  · rw [hsubject] at hj
    rw [hr, List.length_set]
    exact h.latest j hj
  · rw [hr] at ht
    rw [hsubject]
    obtain ⟨rfl, rfl⟩ | ⟨-, ht⟩ := set_eq_some ht
    · exact h.awaiting j s hs (hc hawait)
    · exact h.awaiting j t ht hawait

/-- A client arrives while the listener accepts. -/
theorem Attended.accept (h : Attended r) (hl : r.listener = .accept) (r' : State)
    (hr : r'.registrations = r.registrations ++ [s])
    (hl' : r'.listener = .find r.registrations.length) (hlocked : r'.locked = r.locked)
    (hnumber : ∀ pool, (r'.record pool).2 ≤ r'.numbered) : Attended r' := by
  refine ⟨fun j hj => ?_, fun j t ht hawait => ?_, fun hlock => ?_, hnumber⟩
  · rw [hl'] at hj
    cases hj
    rw [hr]
    exact List.length_append
  · rw [hr] at ht
    obtain ⟨rfl, rfl⟩ | ht := concat_eq_some ht
    · rw [hl']
      rfl
    · have hsubject := h.awaiting j t ht hawait
      rw [hl] at hsubject
      cases hsubject
  · obtain hholds | ⟨j, t, ht, hholds⟩ := h.held (hlocked ▸ hlock)
    · rw [hl] at hholds
      exact hholds.elim
    · exact .inr ⟨j, t, by rw [hr]; exact concat_of_some ht, hholds⟩

/-- The reply ends the handling of a registration. -/
theorem Attended.send (h : Attended r) (hl : r.listener = .send k)
    (hs : r.registrations[k]? = some s) (r' : State)
    (hr : r'.registrations = r.registrations.set k s') (hthread : s'.thread = s.thread)
    (hclient : s'.client ≠ .awaiting) (hl' : r'.listener = .accept)
    (hlocked : r'.locked = r.locked) (hnumber : ∀ pool, (r'.record pool).2 ≤ r'.numbered) :
    Attended r' := by
  refine ⟨fun j hj => ?_, fun j t ht hawait => ?_, fun hlock => ?_, hnumber⟩
  · rw [hl'] at hj
    cases hj
  · rw [hr] at ht
    obtain ⟨rfl, rfl⟩ | ⟨hjk, ht⟩ := set_eq_some ht
    · exact absurd hawait hclient
    · have hsubject := h.awaiting j t ht hawait
      rw [hl] at hsubject
      cases hsubject
      exact absurd rfl hjk
  · obtain hholds | hheld := h.held (hlocked ▸ hlock)
    · rw [hl] at hholds
      exact hholds.elim
    · exact .inr (hheld.set hs r' hr fun hholds => by rwa [hthread])

/-- A statement of a client that has its reply. -/
theorem Attended.client (h : Attended r) (hs : r.registrations[k]? = some s) (r' : State)
    (hr : r'.registrations = r.registrations.set k s') (hthread : s'.thread = s.thread)
    (hclient : s'.client ≠ .awaiting) (hl : r'.listener = r.listener)
    (hlocked : r'.locked = r.locked) (hnumber : ∀ pool, (r'.record pool).2 ≤ r'.numbered) :
    Attended r' := by
  refine h.put hs r' hr (by rw [hl]) (fun hawait => absurd hawait hclient) (fun hlock => ?_) hnumber
  obtain hholds | hheld := h.held (hlocked ▸ hlock)
  · exact .inl (hl ▸ hholds)
  · exact .inr (hheld.set hs r' hr fun hholds => by rwa [hthread])

section

variable {handle : Kind → Nat} {kernel : Kernel} {record : Name → Option (Int × Nat)}
  {locked : Bool}

/-- Threads do not count numbers. -/
theorem ThreadEffect.number_eq (h : ThreadEffect r s handle kernel record locked) (pool : Name) :
    ((record pool).getD (0, 0)).2 = (r.record pool).2 := by
  cases h with
  | @decrementing chs pc hchs =>
    rw [Function.update_apply]
    split_ifs with hpool
    · rw [hpool, Option.getD_some]
    · rfl
  | _ => rfl

/-- A lock that is taken behind a statement of a thread is held by the thread, or by whoever has
held it before. -/
theorem ThreadEffect.holdsLock (h : ThreadEffect r s handle kernel record locked)
    (hlocked : locked = true) :
    s.thread.next.HoldsLock ∨ r.locked = true ∧ ¬ s.thread.HoldsLock := by
  cases h with
  | locking pc =>
    left
    rw [pc]
    exact .inl rfl
  | decrementing pc hchs =>
    left
    rw [pc]
    exact .inr rfl
  | unlocking pc => cases hlocked
  | opening pc hpath | refused pc hkind hpath | ftruncate pc | serving pc closing | unlinking pc =>
    right
    refine ⟨hlocked, ?_⟩
    rw [pc]
    rintro (hpc | hpc) <;> cases hpc

end

/-- Up to its last unlinking a thread holds no lock. -/
theorem ThreadPc.not_holdsLock_of_rank {pc : ThreadPc} (h : pc.rank ≤ 13) : ¬ pc.HoldsLock := by
  rintro (rfl | rfl)
  · exact absurd h (by decide)
  · exact absurd h (by decide)

/-- Every move keeps the latest registration attended. -/
theorem Attended.move (h : Attended r) (hsync : Sync r) (hm : Move r r') : Attended r' := by
  have hrank : ∀ {k pc s}, r.listener.stage = some (k, pc) → r.registrations[k]? = some s →
      s.thread = pc := hsync.thread_eq
  have hmore : r.numbered ≤ r'.numbered := (hm.onward hsync).numbered_le
  have hheld : r.locked = true → ¬ r.listener.HoldsLock → r.HeldByThread :=
    fun hlocked hl => (h.held hlocked).resolve_left hl
  cases hm with
  | idle => exact h
  | exit hs hnamed hpath => exact h.listener _ rfl rfl rfl h.held
  | accept pool hl => exact h.accept hl _ rfl rfl rfl fun pool => (h.number pool).trans hmore
  | find hl hs =>
    exact h.listener _ rfl rfl (by rw [hl]; rfl)
      fun hlocked => .inr (hheld hlocked (by rw [hl]; exact id))
  | @lock fresh k hl =>
    refine h.listener _ rfl rfl ?_ fun _ => .inl ?_
    · rw [hl]
      cases fresh <;> rfl
    · cases fresh <;> trivial
  | @unlock fresh k hl =>
    refine h.listener _ rfl rfl ?_ fun hlocked => Bool.noConfusion hlocked
    rw [hl]
    cases fresh <;> rfl
  | newCHS hl hs =>
    exact h.listener _ rfl rfl (by rw [hl]; rfl)
      fun hlocked => .inr (hheld hlocked (by rw [hl]; exact id))
  | adjust hl hs hc =>
    exact h.listener _ rfl rfl (by rw [hl]; rfl)
      fun hlocked => .inr (hheld hlocked (by rw [hl]; exact id))
  | insert hl hs =>
    refine h.put hs _ rfl (by rw [hl]; rfl) id (fun _ => .inl trivial) fun pool => ?_
    rw [record_update r _ rfl]
    split_ifs
    · exact Nat.zero_le _
    · exact (h.number pool).trans hmore
  | increment hl hs =>
    refine h.put hs _ rfl (by rw [hl]; rfl) id (fun _ => .inl trivial) fun pool => ?_
    rw [record_update r _ rfl]
    split_ifs
    · exact (h.number _).trans hmore
    · exact (h.number pool).trans hmore
  | @number fresh k s hl hs =>
    refine h.put hs _ rfl (by rw [hl]; rfl) id (fun _ => .inl trivial) fun pool => ?_
    rw [record_update r _ rfl]
    split_ifs
    · refine (Nat.succ_le_succ (h.number _)).trans (Nat.le_of_eq (Eq.symm ?_))
      refine numbered_succ hs rfl ?_ (Nat.le_refl 2)
      rw [hrank (by rw [hl]; rfl) hs]
      decide
    · exact (h.number pool).trans hmore
  | spawn hl hs hc =>
    refine h.put hs _ rfl (by rw [hl]; rfl) id (fun hlocked => .inr ?_) fun pool => ?_
    · refine (hheld hlocked (by rw [hl]; exact id)).set hs _ rfl fun hholds => ?_
      refine absurd hholds (ThreadPc.not_holdsLock_of_rank ?_)
      rw [hrank (by rw [hl]; rfl) hs]
      decide
    · exact (h.number pool).trans hmore
  | send pid hl hs =>
    exact h.send hl hs _ rfl rfl (fun hawait => ClientPc.noConfusion hawait) rfl rfl
      fun pool => (h.number pool).trans hmore
  | thread hs hthree hdone effect =>
    refine h.put hs _ rfl rfl id (fun hlocked => ?_) fun pool => ?_
    · obtain hholds | ⟨hlocked, hnot⟩ := effect.holdsLock hlocked
      · exact .inr ⟨_, _, set_self hs, hholds⟩
      · obtain hl | hthread := h.held hlocked
        · exact .inl hl
        · exact .inr (hthread.set hs _ rfl fun hholds => absurd hholds hnot)
    · exact (effect.number_eq pool).trans_le ((h.number pool).trans hmore)
  | @attach _ _ _ kind hs pc bound =>
    refine h.client hs _ rfl rfl ?_ rfl rfl fun pool => (h.number pool).trans hmore
    rw [pc]
    cases kind <;> exact fun hawait => ClientPc.noConfusion hawait
  | destroy hs pc =>
    refine h.client hs _ rfl rfl ?_ rfl rfl fun pool => (h.number pool).trans hmore
    rw [pc]
    exact fun hawait => ClientPc.noConfusion hawait

/-! ## The listener gets on -/

/-- Statements left to the threads and to the listener. -/
def State.left (r : State) : Nat :=
  (r.registrations.map fun s => 16 - s.thread.rank).sum + r.listener.left

/-- What a step must be for everybody to be served: a session that gets its number is clear of
those of other pools and has no name that is refused, and a reply leaves room for a NUL in the 32
bytes of the client's buffer. -/
structure State.Fits (r : State) (l : Label) : Prop where
  clear : r.Clear l
  accepted : ∀ s ∈ r.numbering l, ∀ kind : Kind, (kind.path s.name).isSome = true
  reply : ∀ sendInfo ∈ r.replying l, sendInfo.length < 32

/-- What holds along steps that fit. -/
structure Fitting (r : State) : Prop where
  inv : Inv r
  attended : Attended r
  /-- The server runs. -/
  running : r.exited = false
  /-- No name of a session that is not yet unlinked is refused. -/
  accepted : ∀ (k : Nat) (s : Registration), r.registrations[k]? = some s → s.thread.Named →
    ∀ kind : Kind, (kind.path s.name).isSome = true

/-- A step keeps the names short. -/
theorem Fitting.step {l : Label} (h : Fitting r) (hfits : r.Fits l) (hstep : r.step l = some r') :
    Fitting r' := by
  have hm := State.move_of_step hstep
  refine ⟨h.inv.step hfits.clear hstep, h.attended.move h.inv.sync hm, ?_, fun j t ht hn => ?_⟩
  · cases hm with
    | exit hs hnamed hpath =>
      have hsome := h.accepted _ _ hs hnamed ‹Kind›
      rw [hpath] at hsome
      cases hsome
    | _ => exact h.running
  · obtain hback | ⟨k, s, hs, hnumbering, hr⟩ := State.named_of_step h.inv.sync hstep
    · obtain ⟨u, hu, hname, hun⟩ := hback j t ht hn
      rw [← hname]
      exact h.accepted j u hu hun
    · rw [hr] at ht
      obtain ⟨rfl, rfl⟩ | ⟨-, ht⟩ := set_eq_some ht
      · exact hfits.accepted { s with no := (r.record s.pool).2 } hnumbering
      · exact h.accepted j t ht hn

theorem Onward.length_le (h : Onward r.registrations r'.registrations) :
    r.registrations.length ≤ r'.registrations.length := by
  generalize hl : r'.registrations = l at h
  cases h with
  | same => exact Nat.le_refl _
  | added s hs hrank =>
    rw [List.length_append]
    exact Nat.le_add_right _ _
  | changed hs hthread hclient => exact Nat.le_of_eq List.length_set.symm

theorem Fitting.initial : Fitting State.initial := by
  refine ⟨.initial, ?_, rfl, by simp [State.initial]⟩
  constructor <;> simp [State.initial, ListenerPc.subject, State.record]

end CachelibArchive.ClientServer.Registry
