import CachelibArchive.ClientServer.Registry

/-!
# Names and positions of a session

The slashes in front of a pool's name do not reach the files of its sessions, and a semaphore's
file could be that of another pool's shared memory. Within one pool the files tell the number of
the session and the kind of the object: a name ends in a numeral or in one of two words behind its
last underscore. A reply is parsed back into the name it carries.
-/

namespace CachelibArchive.ClientServer.Registry

/-! ## Names -/

theorem Registration.name_inj {s t : Registration} :
    s.name = t.name ↔ s.pool = t.pool ∧ s.no = t.no := by
  rw [name, name, append_separator_inj (underscore_not_mem_decimal _)
    (underscore_not_mem_decimal _), decimal_injective.eq_iff]

/-- A session's name as its files have it. -/
def Registration.fileName (s : Registration) : Name :=
  KernelName.stripped s.pool ++ 95 :: decimal s.no

/-- What follows a name keeps its place when the leading slashes go. -/
theorem Registration.stripped_name (s : Registration) (w : Name) :
    KernelName.stripped (s.name ++ w) = s.fileName ++ w := by
  rw [name, List.append_assoc, List.cons_append, KernelName.stripped_append_cons (by decide),
    fileName, List.append_assoc, List.cons_append]

/-- Shared memory lies at the name without its slashes. -/
theorem shm_path {s : Registration} {path : Name} (h : Kind.shm.path s.name = some path) :
    path = s.fileName := by
  have hpath : path = [] ++ KernelName.stripped s.name := KernelName.file_eq_some h
  rwa [List.nil_append, ← List.append_nil s.name, s.stripped_name, List.append_nil] at hpath

/-- A semaphore lies in the same directory, its name marked as one. -/
theorem sem_path {s : Registration} {kind : Kind} {path : Name} (hk : kind ≠ .shm)
    (h : kind.path s.name = some path) :
    path = KernelName.semStart ++ (s.fileName ++ kind.suffix) := by
  have hfile : KernelName.semFile (s.name ++ kind.suffix) = some path := by
    cases kind with
    | shm => exact absurd rfl hk
    | _ => exact h
  rw [KernelName.file_eq_some hfile, s.stripped_name]

/-- A session's name does not end in a word that is appended to names. -/
theorem fileName_ne_word (s : Registration) {base w : Name} {b : UInt8}
    (hw : (95 : UInt8) ∉ b :: w) (hb : 57 < b.toNat) : s.fileName ≠ base ++ 95 :: b :: w := by
  intro h
  rw [Registration.fileName, append_separator_inj (underscore_not_mem_decimal _) hw] at h
  exact absurd (digit_of_mem_decimal (h.2 ▸ List.mem_cons_self)).2 (by omega)

/-- A semaphore's name is its session's, and its suffix tells which one it is. -/
theorem sem_name_inj {s t : Registration} {kind kind' : Kind} (hk : kind ≠ .shm)
    (hk' : kind' ≠ .shm) (h : s.fileName ++ kind.suffix = t.fileName ++ kind'.suffix) :
    kind = kind' ∧ s.fileName = t.fileName := by
  have hserver : (95 : UInt8) ∉ [83, 101, 114, 118, 101, 114] := by decide
  have hgetback : (95 : UInt8) ∉ [103, 101, 116, 98, 97, 99, 107] := by decide
  cases kind with
  | shm => exact absurd rfl hk
  | sem =>
    change s.fileName ++ [] = _ at h
    rw [List.append_nil] at h
    cases kind' with
    | shm => exact absurd rfl hk'
    | sem => exact ⟨rfl, h.trans (List.append_nil _)⟩
    | semServer => exact absurd h (fileName_ne_word s hserver (by decide))
    | semGetBack => exact absurd h (fileName_ne_word s hgetback (by decide))
  | semServer =>
    cases kind' with
    | shm => exact absurd rfl hk'
    | sem =>
      have ht := (List.append_nil _).symm.trans h.symm
      exact absurd ht (fileName_ne_word t hserver (by decide))
    | semServer => exact ⟨rfl, List.append_cancel_right h⟩
    | semGetBack =>
      rw [Kind.suffix, Kind.suffix, append_separator_inj hserver hgetback] at h
      exact absurd h.2 (by decide)
  | semGetBack =>
    cases kind' with
    | shm => exact absurd rfl hk'
    | sem =>
      have ht := (List.append_nil _).symm.trans h.symm
      exact absurd ht (fileName_ne_word t hgetback (by decide))
    | semServer =>
      rw [Kind.suffix, Kind.suffix, append_separator_inj hgetback hserver] at h
      exact absurd h.2 (by decide)
    | semGetBack => exact ⟨rfl, List.append_cancel_right h⟩

/-- In one pool no semaphore has the file of a shared memory. -/
theorem fileName_ne_sem {s t : Registration} {kind : Kind} (hpool : s.pool = t.pool)
    (hk : kind ≠ .shm) :
    s.fileName ≠ KernelName.semStart ++ (t.fileName ++ kind.suffix) := by
  intro h
  cases kind with
  | shm => exact hk rfl
  | sem =>
    have hsuffix : Kind.sem.suffix = [] := rfl
    rw [hsuffix, List.append_nil, Registration.fileName, Registration.fileName,
      ← List.append_assoc, append_separator_inj (underscore_not_mem_decimal _)
        (underscore_not_mem_decimal _), hpool] at h
    have hlen := congrArg List.length h.1
    rw [List.length_append] at hlen
    exact absurd hlen (Nat.ne_of_lt (Nat.lt_add_of_pos_left (by decide)))
  | semServer | semGetBack =>
    rw [← List.append_assoc] at h
    exact fileName_ne_word s (by decide) (by decide) h

/-- In one pool a file tells the number of the session and the kind of the object. -/
theorem path_inj {s t : Registration} {kind kind' : Kind} {path : Name} (hpool : s.pool = t.pool)
    (hs : kind.path s.name = some path) (ht : kind'.path t.name = some path) :
    kind = kind' ∧ s.no = t.no := by
  have hname : kind = kind' ∧ s.fileName = t.fileName := by
    by_cases hk : kind = .shm
    · subst hk
      by_cases hk' : kind' = .shm
      · subst hk'
        exact ⟨rfl, (shm_path hs).symm.trans (shm_path ht)⟩
      · exact absurd ((shm_path hs).symm.trans (sem_path hk' ht)) (fileName_ne_sem hpool hk')
    · by_cases hk' : kind' = .shm
      · subst hk'
        exact absurd ((shm_path ht).symm.trans (sem_path hk hs)) (fileName_ne_sem hpool.symm hk)
      · exact sem_name_inj hk hk'
          (List.append_cancel_left ((sem_path hk hs).symm.trans (sem_path hk' ht)))
  obtain ⟨hkind, hfile⟩ := hname
  rw [Registration.fileName, Registration.fileName, append_separator_inj
    (underscore_not_mem_decimal _) (underscore_not_mem_decimal _), decimal_injective.eq_iff] at hfile
  exact ⟨hkind, hfile.2⟩

/-- The files of an identifier are those of its five objects. -/
theorem mem_files {shmId path : Name} : path ∈ files shmId ↔ ∃ kind : Kind,
    kind.path shmId = some path := by
  rw [files, List.mem_filterMap]
  exact exists_congr fun kind => and_iff_right (by cases kind <;> decide)

/-- The client finds the session's name in the reply, whatever the pool id. -/
theorem parseShmId_reply (pid : Nat) (s : Registration) :
    State.parseShmId (s.sendInfo pid) = s.name := by
  have hpid : ∀ b ∈ decimal pid, (decide (b ≠ 32)) = true := by
    intro b hb
    have hne : b ≠ 32 := by
      rintro rfl
      exact blank_not_mem_decimal pid hb
    simpa using hne
  rw [State.parseShmId, Registration.sendInfo, List.dropWhile_append_of_pos hpid]
  simp

/-! ## Positions -/

namespace ThreadPc

/-- A thread passes one statement at a time. -/
theorem rank_next {pc : ThreadPc} (h : pc ≠ .done) : pc.next.rank = pc.rank + 1 := by
  cases pc with
  | done => exact absurd rfl h
  | opening kind => cases kind <;> rfl
  | unlinking kind => cases kind <;> rfl
  | _ => rfl

/-- In the pool's count. -/
def Counted (pc : ThreadPc) : Prop := 1 ≤ pc.rank ∧ pc.rank ≤ 14

instance (pc : ThreadPc) : Decidable pc.Counted := inferInstanceAs (Decidable (_ ∧ _))

/-- Numbered, and still in the pool's count. -/
def Numbered (pc : ThreadPc) : Prop := 2 ≤ pc.rank ∧ pc.rank ≤ 14

instance (pc : ThreadPc) : Decidable pc.Numbered := inferInstanceAs (Decidable (_ ∧ _))

/-- Numbered, and not yet unlinked. -/
def Named (pc : ThreadPc) : Prop := 2 ≤ pc.rank ∧ pc.rank ≤ 12

instance (pc : ThreadPc) : Decidable pc.Named := inferInstanceAs (Decidable (_ ∧ _))

/-- Past the opening of the object. -/
def Opened (kind : Kind) (pc : ThreadPc) : Prop := (opening kind).rank < pc.rank

/-- Past the opening of the object, and not past its unlinking. -/
def Holds (kind : Kind) (pc : ThreadPc) : Prop :=
  pc.Opened kind ∧ pc.rank ≤ (unlinking kind).rank

/-- Objects are created behind the naming and before the reply. -/
theorem rank_opening_bounds (kind : Kind) :
    3 ≤ (opening kind).rank ∧ (opening kind).rank ≤ 7 := by
  cases kind <;> decide

/-- They are unlinked after the client has gone. -/
theorem rank_unlinking_bounds (kind : Kind) :
    9 ≤ (unlinking kind).rank ∧ (unlinking kind).rank ≤ 12 := by
  cases kind <;> decide

/-- Only a named registration holds objects. -/
theorem Holds.named {kind : Kind} {pc : ThreadPc} (h : pc.Holds kind) : pc.Named := by
  obtain ⟨h1, h2⟩ := h
  have hb := rank_opening_bounds kind
  have hu := rank_unlinking_bounds kind
  unfold Opened at h1
  constructor <;> omega

/-- A name contains its number. -/
theorem Named.numbered {pc : ThreadPc} (h : pc.Named) : pc.Numbered :=
  ⟨h.1, Nat.le_trans h.2 (by decide)⟩

end ThreadPc

/-- The thread has opened the object. -/
def Registration.Has (s : Registration) (kind : Kind) : Prop :=
  s.thread.Opened kind ∧ (kind.path s.name).isSome = true

/-- The thread has opened the object under this file and not yet unlinked it. -/
def Registration.HoldsAt (s : Registration) (kind : Kind) (path : Name) : Prop :=
  s.thread.Holds kind ∧ kind.path s.name = some path

theorem Registration.HoldsAt.has {s : Registration} {kind : Kind} {path : Name}
    (h : s.HoldsAt kind path) : s.Has kind :=
  ⟨h.1.1, by rw [h.2]; rfl⟩

/-- The client has opened the object. -/
def ClientPc.Opened (kind : Kind) (pc : ClientPc) : Prop :=
  (ClientPc.opening kind).rank < pc.rank

/-! ## Changes to one registration -/

/-- The registrations after one of them was replaced. -/
theorem set_eq_some {l : List Registration} {k j : Nat} {s t : Registration}
    (h : (l.set k s)[j]? = some t) : j = k ∧ t = s ∨ j ≠ k ∧ l[j]? = some t := by
  rw [List.getElem?_set] at h
  split_ifs at h with hkj
  · exact .inl ⟨hkj.symm, (Option.some.inj h).symm⟩
  · exact .inr ⟨Ne.symm hkj, h⟩

/-- The registration that moves is the one set. -/
theorem set_self {l : List Registration} {k : Nat} {s t : Registration} (h : l[k]? = some t) :
    (l.set k s)[k]? = some s :=
  List.getElem?_set_self (List.getElem?_eq_some_iff.mp h).1

/-- The others stay. -/
theorem set_ne {l : List Registration} {k j : Nat} {s t : Registration} (hjk : j ≠ k)
    (h : l[j]? = some t) : (l.set k s)[j]? = some t := by
  rwa [List.getElem?_set_ne (Ne.symm hjk)]

/-- The registrations after one was added. -/
theorem concat_eq_some {l : List Registration} {j : Nat} {s t : Registration}
    (h : (l ++ [s])[j]? = some t) : j = l.length ∧ t = s ∨ l[j]? = some t := by
  rw [List.getElem?_append] at h
  split_ifs at h with hj
  · exact .inr h
  · obtain ⟨hlt, heq⟩ := List.getElem?_eq_some_iff.mp h
    simp only [List.length_singleton, Nat.lt_one_iff] at hlt
    simp only [List.getElem_singleton] at heq
    exact .inl ⟨by omega, heq.symm⟩

/-- They stay when a registration arrives, too. -/
theorem concat_of_some {l : List Registration} {j : Nat} {s t : Registration}
    (h : l[j]? = some t) : (l ++ [s])[j]? = some t := by
  rw [List.getElem?_append_left (List.getElem?_eq_some_iff.mp h).1, h]

end CachelibArchive.ClientServer.Registry
