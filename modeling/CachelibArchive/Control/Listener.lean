import CachelibArchive.Control.Resize
import CachelibArchive.Core.KernelName
import Mathlib.Data.List.Sort
import Mathlib.Logic.Function.Basic

/-!
# The listener

One iteration of `listen_addpool`: one `recv` into a buffer of zeros, whose text is read
up to its NUL, and one of four requests. A registration starts the thread of its session
in the same process. An iteration goes wrong in the constructor of the message's text, in
looking up a pool that is not there or in adding one without memory for it, the thread in
opening its kernel objects, and nothing goes wrong elsewhere.
-/

namespace CachelibArchive.Control

open Text

/-! ## Buffers -/

/-- Bytes of `buf` in `listen_addpool`. -/
abbrev bufSize : Nat := 1024

/-- What one `recv` delivers of the bytes that were sent. -/
def recv (size : Nat) (sent : List UInt8) : List UInt8 := sent.take size

/-- A buffer of zeros that bytes were received into. -/
def filled (size : Nat) (received : List UInt8) : List UInt8 :=
  received ++ List.replicate (size - received.length) 0

/-- The string that begins a buffer; without a NUL the read goes on behind its end. -/
def cString (buf : List UInt8) : Except Fault (List UInt8) :=
  if 0 ∈ buf then .ok (buf.takeWhile (· ≠ 0)) else .error .outOfBounds

/-- `string(s, pos, n)` -/
def substring (s : List UInt8) (pos n : Nat) : Except Fault (List UInt8) :=
  if s.length < pos then .error .outOfRange else .ok ((s.drop pos).take n)

/-- `string(buf, 2, bytesReceived-2)`, the length taken as a `size_t`. -/
def messageText (received : List UInt8) : Except Fault (List UInt8) :=
  match cString (filled bufSize received) with
  | .error e => .error e
  | .ok s => substring s 2 (((received.length : Int) - 2) % 2 ^ 64).toNat

/-! ## The server -/

/-- What the listener keeps, beside the pools. -/
structure Server where
  /-- The pools of the cache. -/
  pools : PoolTable
  /-- `poolRecord`: live sessions and next number of each pool. -/
  poolRecord : Name → Option (Int32 × Int32)
  /-- `name2CHS`, as the size of the pool's statistics. -/
  name2CHS : Name → Option Nat
  /-- A pool with a record has statistics. -/
  known : ∀ name, (poolRecord name).isSome = true → (name2CHS name).isSome = true

namespace Server

/-- Number of a new session, and what is recorded of the pool then. -/
def number (r : Server) (poolName : Name) : Int32 × (Int32 × Int32) :=
  match r.poolRecord poolName with
  | none => (0, (1, 1))
  | some p => if p.1 = 0 then (0, (1, 1)) else (p.2, (p.1 + 1, p.2 + 1))

/-- Size of the pool's statistics, which are new when nothing is recorded of live sessions. -/
def statistics (r : Server) (poolName : Name) : Nat :=
  match h : r.poolRecord poolName with
  | none => 0
  | some p => if p.1 = 0 then 0 else (r.name2CHS poolName).get (r.known poolName (by rw [h]; rfl))

/-- `poolName + "_" + to_string(newShmId)` -/
def sessionName (poolName : Name) (newShmId : Int32) : Name :=
  poolName ++ 95 :: decimalInt newShmId.toInt

/-- `sendInfo`: the reply to a registration. -/
def sendInfo (pid : Nat) (poolName : Name) (newShmId : Int32) : List UInt8 :=
  decimal pid ++ 32 :: sessionName poolName newShmId

/-- A session is registered for a pool: its number, and the records with it. -/
def register (r : Server) (pools : PoolTable) (poolName : Name) : Server × Int32 :=
  let (newShmId, record) := r.number poolName
  ({ pools
     poolRecord := Function.update r.poolRecord poolName (some record)
     name2CHS := Function.update r.name2CHS poolName
       (some (max (r.statistics poolName) (newShmId + 1).toInt.toNat))
     known := fun name h => by
       by_cases hn : name = poolName
       · rw [hn, Function.update_self]
         rfl
       · rw [Function.update_of_ne hn] at h ⊢
         exact r.known name h }, newShmId)

end Server

/-- The server as it starts by default, without pools. -/
def Server.start : Server where
  pools :=
    { capacity := 5 * 1024 * MB_SIZE + 4 * MB_SIZE
      poolSize := 16 * MB_SIZE
      pools := []
      nodup := by simp
      fits := by simp
      bounded := by decide }
  poolRecord := fun _ => none
  name2CHS := fun _ => none
  known := by simp

/-- `getCacheStats`: the pools in the order of their names, with their sizes in units. -/
def getCacheStats (t : PoolTable) : List (Name × Nat) :=
  (t.pools.map fun p => (p.1, p.2 / SIZE_CONV)).insertionSort fun p q => p.1 ≤ q.1

/-- The reply to `G`. -/
def serialize (stats : List (Name × Nat)) : List UInt8 :=
  stats.flatMap fun p => p.1 ++ 58 :: (decimal p.2 ++ [59])

/-- What an iteration does: the server then, the bytes sent back, whether the next connection is
accepted, and the session whose thread it has started. -/
structure Served where
  server : Server
  reply : List UInt8
  continues : Bool
  spawned : Option Name

/-- One iteration of `listen_addpool`, for the bytes a client has sent. -/
def iteration (r : Server) (sent : List UInt8) : Except Fault Served :=
  let received := recv bufSize sent
  match (filled bufSize received).head? with
  | some 65 =>
    match messageText received with
    | .error e => .error e
    | .ok poolName =>
      match r.pools.addpool_ poolName with
      | .error e => .error e
      | .ok (pools, pid) =>
        let (server, newShmId) := r.register pools poolName
        .ok ⟨server, Server.sendInfo pid poolName newShmId, true,
          some (Server.sessionName poolName newShmId)⟩
  | some 71 => .ok ⟨r, serialize (getCacheStats r.pools), true, none⟩
  | some 83 =>
    match messageText received with
    | .error e => .error e
    | .ok getMessage =>
      match r.pools.executeNewConfig getMessage with
      | .error e => .error e
      | .ok (pools, _) => .ok ⟨{ r with pools }, [], true, none⟩
  | some 69 => .ok ⟨r, [], false, none⟩
  | _ => .ok ⟨r, [], true, none⟩

/-- `sharedMemCtl` up to its loop: without its shared memory the process exits, and what
`sem_open` returns is not looked at before `sem_trywait` is called with it. -/
def sharedMemCtl (appName : Name) : Except Fault Unit :=
  if KernelName.shmFile appName = none then .error .exited
  else if KernelName.semFile appName = none then .error .nullPointer
  else .ok ()

/-- One iteration, and the start of the thread it has spawned. -/
def answer (r : Server) (sent : List UInt8) : Except Fault Served :=
  match iteration r sent with
  | .error e => .error e
  | .ok s =>
    match s.spawned with
    | none => .ok s
    | some appName => (sharedMemCtl appName).map fun _ => s

/-! ## The text of a message -/

/-- The string that was received. -/
def receivedText (sent : List UInt8) : List UInt8 := (recv bufSize sent).takeWhile (· ≠ 0)

/-- `buf[0]` -/
def command (sent : List UInt8) : UInt8 := sent.headD 0

/-- A NUL is received, or there is room for one. -/
def Terminated (sent : List UInt8) : Prop := sent.length < bufSize ∨ 0 ∈ recv bufSize sent

instance (sent : List UInt8) : Decidable (Terminated sent) := inferInstanceAs (Decidable (_ ∨ _))

theorem length_recv_le (size : Nat) (sent : List UInt8) : (recv size sent).length ≤ size :=
  List.length_take_le ..

theorem terminated_iff (sent : List UInt8) :
    0 ∈ filled bufSize (recv bufSize sent) ↔ Terminated sent := by
  rw [filled, List.mem_append, List.mem_replicate, Terminated, recv, List.length_take]
  constructor
  · rintro (h | ⟨h, -⟩)
    · exact .inr h
    · left
      omega
  · rintro (h | h)
    · exact .inr ⟨by omega, rfl⟩
    · exact .inl h

theorem takeWhile_filled (size : Nat) (received : List UInt8) :
    (filled size received).takeWhile (· ≠ 0) = received.takeWhile (· ≠ 0) := by
  have hpad : ∀ (k : Nat) (l : List UInt8),
      (l ++ List.replicate k 0).takeWhile (· ≠ 0) = l.takeWhile (· ≠ 0) := by
    intro k l
    induction l with
    | nil => cases k <;> simp [List.replicate_succ]
    | cons b l ih =>
      rw [List.cons_append, List.takeWhile_cons, List.takeWhile_cons, ih]
  exact hpad _ _

theorem head_filled (sent : List UInt8) :
    (filled bufSize (recv bufSize sent)).head? = some (command sent) := by
  cases sent with
  | nil => decide
  | cons b l => rfl

theorem messageText_of_unterminated {sent : List UInt8} (h : ¬ Terminated sent) :
    messageText (recv bufSize sent) = .error .outOfBounds := by
  rw [messageText, cString, if_neg (mt (terminated_iff sent).mp h)]

/-- The message is the text behind its first two bytes. -/
theorem messageText_of_terminated {sent : List UInt8} (h : Terminated sent) :
    messageText (recv bufSize sent) =
      if (receivedText sent).length < 2 then .error .outOfRange
      else .ok ((receivedText sent).drop 2) := by
  rw [messageText, cString, if_pos ((terminated_iff sent).mpr h)]
  simp only [takeWhile_filled]
  rw [substring, ← receivedText]
  split_ifs with hlen
  · rfl
  · -- the text is no longer than what was received
    have hle : (receivedText sent).length ≤ (recv bufSize sent).length :=
      (List.takeWhile_prefix _).length_le
    have hbuf : (recv bufSize sent).length ≤ 1024 := length_recv_le bufSize sent
    have hn : (((recv bufSize sent).length : Int) - 2) % 2 ^ 64 =
        (((recv bufSize sent).length - 2 : Nat) : Int) := by
      omega
    rw [hn, Int.toNat_natCast, List.take_of_length_le]
    rw [List.length_drop]
    omega

theorem messageText_eq_ok {sent s : List UInt8} :
    messageText (recv bufSize sent) = .ok s ↔
      Terminated sent ∧ 2 ≤ (receivedText sent).length ∧ s = (receivedText sent).drop 2 := by
  by_cases h : Terminated sent
  · rw [messageText_of_terminated h]
    split_ifs with hlen
    · simp
      omega
    · simp only [Except.ok.injEq, h, true_and, Nat.not_lt.mp hlen, eq_comm]
  · rw [messageText_of_unterminated h]
    simp [h]

/-! ## What can go wrong -/

/-- A loop that ends has found every pool. -/
theorem PoolTable.registered_of_resizeLoop {due : Nat → Nat → Bool} {entries : List (Name × Nat)}
    {t : PoolTable} {r : PoolTable × List (Option Bool)} (h : resizeLoop due t entries = .ok r) :
    ∀ e ∈ entries, (t.size e.1).isSome = true := by
  induction entries generalizing t r with
  | nil => exact fun e he => absurd he (by simp)
  | cons e rest ih =>
    obtain ⟨name, n⟩ := e
    cases hs : t.size name with
    | none =>
      simp only [resizeLoop, getPoolSizeFromName_of_none hs] at h
      cases h
    | some s =>
      simp only [resizeLoop, getPoolSizeFromName_of_size hs] at h
      have hrest : ∀ e ∈ rest, (t.size e.1).isSome = true := by
        split_ifs at h
        · obtain ⟨t₁, done, hok, -, hsome⟩ := resizePool_keep (n * SIZE_CONV % 2 ^ 64) hs
          rw [hok] at h
          cases hl : resizeLoop due t₁ rest with
          | error e =>
            simp only [hl, Except.map] at h
            cases h
          | ok r' => exact fun e he => (hsome e.1).symm.trans (ih hl e he)
        · exact ih h
      intro e he
      obtain rfl | he := List.mem_cons.mp he
      · simp [hs]
      · exact hrest e he

/-- `executeNewConfig` ends if and only if every pool it lists is there. -/
theorem PoolTable.executeNewConfig_ok_iff (t : PoolTable) (config : List UInt8) :
    (∃ r, t.executeNewConfig config = .ok r) ↔
      ∀ e ∈ parseConfig config, (t.size e.1).isSome = true := by
  unfold executeNewConfig
  constructor
  · rintro ⟨r, hr⟩
    cases hl : t.shrinkLoop (parseConfig config) with
    | error e =>
      simp only [hl] at hr
      cases hr
    | ok r' => exact registered_of_resizeLoop hl
  · intro hreg
    obtain ⟨t₁, done₁, hok₁, -, hsome₁⟩ := resizeLoop_keep
      (fun currSize poolSize => decide (currSize > poolSize)) hreg
    obtain ⟨t₂, done₂, hok₂, -, -⟩ := resizeLoop_keep
      (fun currSize poolSize => decide (currSize < poolSize))
      fun e he => (hsome₁ e.1).trans (hreg e he)
    simp only [shrinkLoop, hok₁, growLoop, hok₂, Except.map]
    exact ⟨_, rfl⟩

/-- `addpool_` ends if and only if the pool is there or the memory for it is. -/
theorem PoolTable.addpool_ok_iff (t : PoolTable) (poolName : Name) :
    (∃ r, t.addpool_ poolName = .ok r) ↔
      (t.size poolName).isSome = true ∨ t.poolSize ≤ t.unreserved := by
  unfold addpool_
  cases hs : t.size poolName with
  | some s =>
    obtain ⟨i, hid, -⟩ := getPoolId_of_size hs
    simp [hid]
  | none =>
    have hnot : poolName ∉ t.pools.map Prod.fst := lookup_eq_none_iff.mp hs
    rw [getPoolId_of_none hs]
    unfold addPool
    by_cases hroom : t.poolSize ≤ t.unreserved
    · simp [hnot, hroom]
    · simp [hroom]

/-- The name of a session's kernel objects: behind its leading slashes it has no slash and leaves
room for what is put in front of it. -/
def Openable (appName : Name) : Prop :=
  47 ∉ KernelName.stripped appName ∧ (KernelName.stripped appName).length ≤ 251

/-- What a message must be for the server to live on: a registration or a configuration has a
terminated text of two bytes at least, a registration's pool is there or has memory left for it
and its session a name that can be opened, and a configuration's pools are all there. -/
def Tolerated (r : Server) (sent : List UInt8) : Prop :=
  (command sent = 65 → Terminated sent ∧ 2 ≤ (receivedText sent).length ∧
    ((r.pools.size ((receivedText sent).drop 2)).isSome = true ∨
      r.pools.poolSize ≤ r.pools.unreserved) ∧
    Openable (Server.sessionName ((receivedText sent).drop 2)
      (r.number ((receivedText sent).drop 2)).1)) ∧
  (command sent = 83 → Terminated sent ∧ 2 ≤ (receivedText sent).length ∧
    ∀ e ∈ parseConfig ((receivedText sent).drop 2), (r.pools.size e.1).isSome = true)

/-- The iteration and the thread's start end, and the next connection is accepted unless the first
byte is `E`. -/
def Harmless (r : Server) (sent : List UInt8) : Prop :=
  ∃ s, answer r sent = .ok s ∧ s.continues = decide (command sent ≠ 69)

/-- The thread of a session starts exactly if the session's name can be opened. -/
theorem sharedMemCtl_ok_iff (poolName : Name) (newShmId : Int32) :
    sharedMemCtl (Server.sessionName poolName newShmId) = .ok () ↔
      Openable (Server.sessionName poolName newShmId) := by
  have hsem : (KernelName.semFile (Server.sessionName poolName newShmId)).isSome = true ↔
      Openable (Server.sessionName poolName newShmId) := by
    have hne : KernelName.stripped (Server.sessionName poolName newShmId) ≠ [] := by
      rw [Server.sessionName, KernelName.stripped_append_cons (by decide)]
      simp
    rw [KernelName.semFile, KernelName.isSome_file_iff, Openable, List.length_append]
    simp only [ne_eq, hne, not_false_eq_true, true_and, List.length_cons, List.length_nil]
    refine and_congr_right fun _ => ?_
    unfold KernelName.NAME_MAX
    omega
  rw [← hsem, sharedMemCtl]
  constructor
  · intro h
    split_ifs at h with hshm hnone
    exact Option.isSome_iff_ne_none.mpr hnone
  · intro h
    rw [if_neg (Option.isSome_iff_ne_none.mp (KernelName.isSome_shmFile_of_semFile h)),
      if_neg (Option.isSome_iff_ne_none.mp h)]

/-- Where the iteration starts no thread, it is the whole answer. -/
theorem answer_of_iteration {r : Server} {sent : List UInt8} {s : Served}
    (h : iteration r sent = .ok s) (hs : s.spawned = none) : answer r sent = .ok s := by
  rw [answer, h]
  simp only [hs]

theorem harmless_of_register (r : Server) {sent : List UInt8} (h : command sent = 65) :
    Harmless r sent ↔ Terminated sent ∧ 2 ≤ (receivedText sent).length ∧
      ((r.pools.size ((receivedText sent).drop 2)).isSome = true ∨
        r.pools.poolSize ≤ r.pools.unreserved) ∧
      Openable (Server.sessionName ((receivedText sent).drop 2)
        (r.number ((receivedText sent).drop 2)).1) := by
  simp only [Harmless, answer, iteration, head_filled, h]
  constructor
  · rintro ⟨s, hok, -⟩
    cases hm : messageText (recv bufSize sent) with
    | error e =>
      simp only [hm] at hok
      cases hok
    | ok poolName =>
      obtain ⟨hterm, hlen, rfl⟩ := messageText_eq_ok.mp hm
      refine ⟨hterm, hlen, ?_⟩
      cases ha : r.pools.addpool_ ((receivedText sent).drop 2) with
      | error e =>
        simp only [hm, ha] at hok
        cases hok
      | ok p =>
        refine ⟨(r.pools.addpool_ok_iff _).mp ⟨p, ha⟩, ?_⟩
        simp only [hm, ha, Server.register] at hok
        cases hstart : sharedMemCtl (Server.sessionName ((receivedText sent).drop 2)
            (r.number ((receivedText sent).drop 2)).1) with
        | error e =>
          rw [hstart] at hok
          cases hok
        | ok _ => exact (sharedMemCtl_ok_iff ..).mp hstart
  · rintro ⟨hterm, hlen, hpool, hname⟩
    obtain ⟨⟨pools, pid⟩, ha⟩ := (r.pools.addpool_ok_iff _).mpr hpool
    simp only [messageText_eq_ok.mpr ⟨hterm, hlen, rfl⟩, ha, Server.register,
      (sharedMemCtl_ok_iff ..).mpr hname]
    exact ⟨_, rfl, rfl⟩

theorem harmless_of_configure (r : Server) {sent : List UInt8} (h : command sent = 83) :
    Harmless r sent ↔ Terminated sent ∧ 2 ≤ (receivedText sent).length ∧
      ∀ e ∈ parseConfig ((receivedText sent).drop 2), (r.pools.size e.1).isSome = true := by
  simp only [Harmless, answer, iteration, head_filled, h]
  constructor
  · rintro ⟨s, hok, -⟩
    cases hm : messageText (recv bufSize sent) with
    | error e =>
      simp only [hm] at hok
      cases hok
    | ok getMessage =>
      obtain ⟨hterm, hlen, rfl⟩ := messageText_eq_ok.mp hm
      refine ⟨hterm, hlen, (r.pools.executeNewConfig_ok_iff _).mp ?_⟩
      cases hx : r.pools.executeNewConfig ((receivedText sent).drop 2) with
      | error e =>
        simp only [hm, hx] at hok
        cases hok
      | ok p => exact ⟨p, rfl⟩
  · rintro ⟨hterm, hlen, hpools⟩
    obtain ⟨⟨pools, done⟩, hx⟩ := (r.pools.executeNewConfig_ok_iff _).mpr hpools
    simp only [messageText_eq_ok.mpr ⟨hterm, hlen, rfl⟩, hx]
    exact ⟨_, rfl, rfl⟩

/-- Every other message is harmless. -/
theorem harmless_of_other (r : Server) {sent : List UInt8} (hA : command sent ≠ 65)
    (hS : command sent ≠ 83) : Harmless r sent := by
  have hdone : ∃ s, iteration r sent = .ok s ∧ s.spawned = none ∧
      s.continues = decide (command sent ≠ 69) := by
    simp only [iteration, head_filled]
    split
    · next h => exact absurd (Option.some.inj h) hA
    · next h =>
      rw [Option.some.inj h]
      exact ⟨_, rfl, rfl, rfl⟩
    · next h => exact absurd (Option.some.inj h) hS
    · next h =>
      rw [Option.some.inj h]
      exact ⟨_, rfl, rfl, rfl⟩
    · next h =>
      have hne : command sent ≠ 69 := fun heq => h (congrArg some heq)
      rw [decide_eq_true hne]
      exact ⟨_, rfl, rfl, rfl⟩
  obtain ⟨s, hok, hspawned, hcontinues⟩ := hdone
  exact ⟨s, answer_of_iteration hok hspawned, hcontinues⟩

/-- A control message leaves the server running exactly if it is tolerated. -/
theorem harmless_iff_tolerated (r : Server) (sent : List UInt8) :
    Harmless r sent ↔ Tolerated r sent := by
  unfold Tolerated
  by_cases hA : command sent = 65
  · rw [harmless_of_register r hA]
    simp [hA]
  · by_cases hS : command sent = 83
    · rw [harmless_of_configure r hS]
      simp [hS]
    · exact iff_of_true (harmless_of_other r hA hS)
        ⟨fun h => absurd h hA, fun h => absurd h hS⟩

/-- A single `A` takes the server down: the message has no third byte to begin its text at. -/
theorem not_harmless_start : ¬ Harmless Server.start [65] := by
  rw [harmless_of_register Server.start rfl]
  rintro ⟨-, hlen, -⟩
  exact absurd hlen (by decide)

/-- So does a pool `a/b`, whose session has a name with a slash. -/
example : ¬ Harmless Server.start [65, 58, 97, 47, 98] := by
  rw [harmless_of_register Server.start rfl]
  rintro ⟨-, -, -, hslash, -⟩
  exact absurd hslash (by decide)

end CachelibArchive.Control
