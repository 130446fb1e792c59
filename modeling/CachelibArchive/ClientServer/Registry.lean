import CachelibArchive.Core.Decimal
import CachelibArchive.Core.KernelName
import CachelibArchive.Core.Run
import Mathlib.Algebra.Group.Nat.Defs
import Mathlib.Logic.Function.Basic

/-!
# Registering sessions

`listen_addpool` numbers the sessions of each pool, spawns a thread for each and sends
the name of its kernel objects back; the thread creates the objects, the client attaches
to them by name, and after `SIG_CLOSE` the thread unlinks them and takes itself off the
pool's count. When the count is seen to be 0, without the lock, the numbers begin at 0
again. A registration is one client with the thread spawned for it; one label is one
statement. The objects are files of one directory, and a name may be one that cannot be
opened. Sets and gets of an attached client change nothing here, and there are no
deletions.
-/

namespace CachelibArchive.ClientServer.Registry

/-- A string, as its bytes. -/
abbrev Name := List UInt8

/-! ## Kernel objects -/

/-- The objects of a session. -/
inductive Kind where
  | shm
  | sem
  | semServer
  | semGetBack
  deriving DecidableEq

/-- What is appended to the session's name. -/
def Kind.suffix : Kind → Name
  | .semServer => [95, 83, 101, 114, 118, 101, 114]
  | .semGetBack => [95, 103, 101, 116, 98, 97, 99, 107]
  | _ => []

/-- All of them. -/
def Kind.all : List Kind := [.shm, .sem, .semServer, .semGetBack]

/-- The file under which a session's object is opened, if the name is accepted. -/
def Kind.path (kind : Kind) (shmId : Name) : Option Name :=
  match kind with
  | .shm => KernelName.shmFile shmId
  | kind => KernelName.semFile (shmId ++ kind.suffix)

/-- The files of a session. -/
def files (shmId : Name) : List Name := Kind.all.filterMap fun kind => kind.path shmId

/-- A shared memory object or a semaphore. -/
structure Object where
  /-- The size of the shared memory was set. -/
  sized : Bool
  /-- The request code in the shared memory is `SIG_CLOSE`. -/
  closing : Bool
  /-- The semaphore was posted for it. -/
  posted : Bool

/-- The objects ever created, and the files they are. -/
structure Kernel where
  /-- Object bound to a file's name. -/
  bound : Name → Option Nat
  /-- The objects. -/
  objects : List Object

namespace Kernel

/-- `shm_open` and `sem_open` with `O_CREAT`. -/
def openCreate (k : Kernel) (path : Name) : Kernel × Nat :=
  match k.bound path with
  | some o => (k, o)
  | none =>
    ({ bound := Function.update k.bound path (some k.objects.length)
       objects := k.objects ++ [⟨false, false, false⟩] }, k.objects.length)

/-- `shm_unlink` and `sem_unlink`. -/
def unlink (k : Kernel) : Option Name → Kernel
  | some path => { k with bound := Function.update k.bound path none }
  | none => k

/-- A change to one object. -/
def modify (k : Kernel) (o : Nat) (f : Object → Object) : Kernel :=
  { k with objects := k.objects.modify o f }

end Kernel

/-! ## Registrations -/

/-- Where a session's thread is, by its next statement. -/
inductive ThreadPc where
  /-- Not counted yet. -/
  | unregistered
  /-- Counted in `poolRecord`. -/
  | registered
  /-- Numbered, but not spawned. -/
  | numbered
  /-- `shm_open` or `sem_open` with `O_CREAT` -/
  | opening (kind : Kind)
  /-- `ftruncate(shm_fd, SHARED_MEMORY_SIZE)` -/
  | ftruncate
  /-- In its loop. -/
  | serving
  /-- `shm_unlink` or `sem_unlink` -/
  | unlinking (kind : Kind)
  /-- `while(slockForRecord.test_and_set(memory_order_acquire));` -/
  | locking
  /-- `poolRecord[chs->poolName].first--;` -/
  | decrementing
  /-- `slockForRecord.clear(memory_order_release);` -/
  | unlocking
  /-- Returned. -/
  | done
  deriving DecidableEq

namespace ThreadPc

/-- Position in the order of statements. -/
def rank : ThreadPc → Nat
  | .unregistered => 0
  | .registered => 1
  | .numbered => 2
  | .opening .shm => 3
  | .ftruncate => 4
  | .opening .sem => 5
  | .opening .semServer => 6
  | .opening .semGetBack => 7
  | .serving => 8
  | .unlinking .shm => 9
  | .unlinking .sem => 10
  | .unlinking .semServer => 11
  | .unlinking .semGetBack => 12
  | .locking => 13
  | .decrementing => 14
  | .unlocking => 15
  | .done => 16

/-- The statement after it. -/
def next : ThreadPc → ThreadPc
  | .unregistered => .registered
  | .registered => .numbered
  | .numbered => .opening .shm
  | .opening .shm => .ftruncate
  | .ftruncate => .opening .sem
  | .opening .sem => .opening .semServer
  | .opening .semServer => .opening .semGetBack
  | .opening .semGetBack => .serving
  | .serving => .unlinking .shm
  | .unlinking .shm => .unlinking .sem
  | .unlinking .sem => .unlinking .semServer
  | .unlinking .semServer => .unlinking .semGetBack
  | .unlinking .semGetBack => .locking
  | .locking => .decrementing
  | .decrementing => .unlocking
  | .unlocking => .done
  | .done => .done

end ThreadPc

/-- Where a client is. -/
inductive ClientPc where
  /-- Waiting for the reply to its registration. -/
  | awaiting
  /-- In `prepare_shm`, opening an object by name. -/
  | opening (kind : Kind)
  /-- `prepare_shm` is completed. -/
  | attached
  /-- The destructor has sent `SIG_CLOSE`. -/
  | closed
  deriving DecidableEq

namespace ClientPc

/-- Position in the order of statements. -/
def rank : ClientPc → Nat
  | .awaiting => 0
  | .opening .shm => 1
  | .opening .sem => 2
  | .opening .semServer => 3
  | .opening .semGetBack => 4
  | .attached => 5
  | .closed => 6

/-- The statement after it. -/
def next : ClientPc → ClientPc
  | .awaiting => .opening .shm
  | .opening .shm => .opening .sem
  | .opening .sem => .opening .semServer
  | .opening .semServer => .opening .semGetBack
  | .opening .semGetBack => .attached
  | .attached => .closed
  | .closed => .closed

end ClientPc

/-- A client that called `addpool`, and the thread spawned for it. -/
structure Registration where
  /-- Name of the pool. -/
  pool : Name
  /-- `newShmId`, the argument `no` of the thread. -/
  no : Nat
  /-- Argument `chs` of the thread. -/
  chs : Nat
  /-- The thread. -/
  thread : ThreadPc
  /-- Objects the thread has opened. -/
  threadHandle : Kind → Nat
  /-- The client. -/
  client : ClientPc
  /-- `this->shmId` of the client. -/
  shmId : Name
  /-- Objects the client has opened. -/
  clientHandle : Kind → Nat

/-- `poolName + "_" + to_string(newShmId)` -/
def Registration.name (s : Registration) : Name := s.pool ++ 95 :: decimal s.no

/-- `to_string(pid) + " " + shmId` -/
def Registration.sendInfo (s : Registration) (pid : Nat) : Name := decimal pid ++ 32 :: s.name

/-! ## The listener -/

/-- Where the listener is in handling registration `k`. -/
inductive ListenerPc where
  | accept
  /-- The unlocked look at `poolRecord`. -/
  | find (k : Nat)
  | lock (fresh : Bool) (k : Nat)
  /-- `poolRecord[poolName] = make_pair(1, 0);` -/
  | insert (k : Nat)
  /-- `(poolRecord[poolName].first)++;` -/
  | increment (k : Nat)
  /-- `newShmId = (poolRecord[poolName].second)++;` -/
  | number (fresh : Bool) (k : Nat)
  | unlock (fresh : Bool) (k : Nat)
  /-- `name2CHS[poolName] = new CacheHitStatistics(poolName);` -/
  | newCHS (k : Nat)
  /-- `name2CHS[poolName]->adjustSize(newShmId);` -/
  | adjust (k : Nat)
  /-- `thread t(sharedMemCtl, shmId, newShmId, name2CHS[poolName]);` -/
  | spawn (k : Nat)
  /-- The reply. -/
  | send (k : Nat)
  deriving DecidableEq

/-- `CacheHitStatistics`; both vectors have the same size. -/
structure CacheHitStatistics where
  /-- Name of the pool. -/
  poolName : Name
  /-- Size of `totalGet` and `hitGet`. -/
  size : Nat

/-- `CacheHitStatistics::adjustSize` -/
def CacheHitStatistics.adjustSize (nSize : Nat) (chs : CacheHitStatistics) : CacheHitStatistics :=
  { chs with size := max chs.size (nSize + 1) }

/-- State of the server, as far as registrations go, with all clients. -/
structure State where
  /-- `poolRecord`: live sessions and next number of each pool. -/
  poolRecord : Name → Option (Int × Nat)
  /-- `name2CHS` -/
  name2CHS : Name → Option Nat
  /-- The statistics objects, addressed by index. -/
  chs : List CacheHitStatistics
  /-- `slockForRecord` -/
  locked : Bool
  /-- The listener. -/
  listener : ListenerPc
  /-- The registrations, in the order they were accepted. -/
  registrations : List Registration
  /-- Names and objects of the kernel. -/
  kernel : Kernel
  /-- The process of the server has ended. -/
  exited : Bool

/-- What happens next. -/
inductive Label where
  /-- The listener accepts a client that registers for a pool. -/
  | accept (pool : Name)
  /-- A statement of the listener; `pid` is what `addpool_` has returned. -/
  | listener (pid : Nat)
  /-- A statement of the thread of a registration. -/
  | thread (k : Nat)
  /-- A statement of its client. -/
  | client (k : Nat)

namespace State

/-- The server has just started: no registrations, none of its kernel objects left over. -/
def initial : State where
  poolRecord := fun _ => none
  name2CHS := fun _ => none
  chs := []
  locked := false
  listener := .accept
  registrations := []
  kernel := ⟨fun _ => none, []⟩
  exited := false

/-- The registration `k` is now `s`. -/
def put (r : State) (k : Nat) (s : Registration) : State :=
  { r with registrations := r.registrations.set k s }

/-- `poolRecord[pool]`, created as a pair of zeros when missing. -/
def record (r : State) (pool : Name) : Int × Nat := (r.poolRecord pool).getD (0, 0)

/-- `recvInfo.substr(recvInfo.find(' ')+1)` -/
def parseShmId (recvInfo : Name) : Name := (recvInfo.dropWhile (· ≠ 32)).drop 1

/-- A new client is connected. -/
def acceptStep (pool : Name) (r : State) : Option State :=
  match r.listener with
  | .accept =>
    some { r with
      listener := .find r.registrations.length
      registrations := r.registrations ++
        [{ pool, no := 0, chs := 0, thread := .unregistered, threadHandle := fun _ => 0,
           client := .awaiting, shmId := [], clientHandle := fun _ => 0 }] }
  | _ => none

/-- One statement of the listener. -/
def listenerStep (pid : Nat) (r : State) : Option State :=
  match r.listener with
  | .accept => none
  | .find k => r.registrations[k]?.map fun s =>
    let fresh := match r.poolRecord s.pool with
      | none => true
      | some p => p.1 == 0
    { r with listener := .lock fresh k }
  | .lock fresh k =>
    if r.locked then some r
    else some { r with locked := true, listener := if fresh then .insert k else .increment k }
  | .insert k => r.registrations[k]?.map fun s =>
    { r.put k { s with thread := .registered } with
      poolRecord := Function.update r.poolRecord s.pool (some (1, 0))
      listener := .number true k }
  | .increment k => r.registrations[k]?.map fun s =>
    { r.put k { s with thread := .registered } with
      poolRecord := Function.update r.poolRecord s.pool
        (some ((r.record s.pool).1 + 1, (r.record s.pool).2))
      listener := .number false k }
  | .number fresh k => r.registrations[k]?.bind fun s =>
    -- past the range of int the increment is undefined behaviour
    if (r.record s.pool).2 + 1 < 2 ^ 31 then
      some { r.put k { s with no := (r.record s.pool).2, thread := .numbered } with
        poolRecord := Function.update r.poolRecord s.pool
          (some ((r.record s.pool).1, (r.record s.pool).2 + 1))
        listener := .unlock fresh k }
    else none
  | .unlock fresh k =>
    some { r with locked := false, listener := if fresh then .newCHS k else .adjust k }
  | .newCHS k => r.registrations[k]?.map fun s =>
    { r with
      chs := r.chs ++ [⟨s.pool, 0⟩]
      name2CHS := Function.update r.name2CHS s.pool (some r.chs.length)
      listener := .adjust k }
  | .adjust k => r.registrations[k]?.bind fun s => (r.name2CHS s.pool).map fun c =>
    { r with chs := r.chs.modify c (CacheHitStatistics.adjustSize s.no), listener := .spawn k }
  | .spawn k => r.registrations[k]?.bind fun s => (r.name2CHS s.pool).map fun c =>
    { r.put k { s with thread := .opening .shm, chs := c } with listener := .send k }
  | .send k => r.registrations[k]?.map fun s =>
    { r.put k { s with
        client := .opening .shm
        shmId := parseShmId (s.sendInfo pid) } with listener := .accept }

/-- One statement of a spawned thread. -/
def threadStep (k : Nat) (s : Registration) (r : State) : Option State :=
  match s.thread with
  | .unregistered | .registered | .numbered | .done => none
  | .opening kind =>
    match kind.path s.name with
    | some path =>
      let (kernel, o) := r.kernel.openCreate path
      some { r.put k { s with
        thread := s.thread.next
        threadHandle := Function.update s.threadHandle kind o } with kernel }
    | none =>
      -- `exit(EXIT_FAILURE)` behind `shm_open`; what `sem_open` returns is not looked at
      if kind = .shm then some { r with exited := true }
      else some (r.put k { s with thread := s.thread.next })
  | .ftruncate =>
    some { r.put k { s with thread := s.thread.next } with
      kernel := r.kernel.modify (s.threadHandle .shm) fun o => { o with sized := true } }
  | .serving =>
    -- `sem_trywait` of a semaphore that was not opened
    if Kind.sem.path s.name = none then some { r with exited := true }
    else if (r.kernel.objects[s.threadHandle .sem]?.any Object.posted) &&
        r.kernel.objects[s.threadHandle .shm]?.any Object.closing then
      -- `sem_post` of one
      if Kind.semServer.path s.name = none then some { r with exited := true }
      else
        some { r.put k { s with thread := s.thread.next } with
          kernel := r.kernel.modify (s.threadHandle .sem) fun o => { o with posted := false } }
    else none
  | .unlinking kind =>
    some { r.put k { s with thread := s.thread.next } with
      kernel := r.kernel.unlink (kind.path s.name) }
  | .locking =>
    if r.locked then some r
    else some { r.put k { s with thread := s.thread.next } with locked := true }
  | .decrementing => r.chs[s.chs]?.map fun chs =>
    { r.put k { s with thread := s.thread.next } with
      poolRecord := Function.update r.poolRecord chs.poolName
        (some ((r.record chs.poolName).1 - 1, (r.record chs.poolName).2)) }
  | .unlocking =>
    some { r.put k { s with thread := s.thread.next } with locked := false }

/-- One statement of a client. -/
def clientStep (k : Nat) (s : Registration) (r : State) : Option State :=
  match s.client with
  | .awaiting | .closed => none
  | .opening kind =>
    match (kind.path s.shmId).bind r.kernel.bound with
    | none => some r
    | some o =>
      some (r.put k { s with
        client := s.client.next
        clientHandle := Function.update s.clientHandle kind o })
  | .attached =>
    some { r.put k { s with client := s.client.next } with
      kernel := (r.kernel.modify (s.clientHandle .shm) fun o => { o with closing := true }).modify
        (s.clientHandle .sem) fun o => { o with posted := true } }

/-- One step; the listener and the threads end with the server. -/
def step (r : State) : Label → Option State
  | .accept pool => if r.exited then none else r.acceptStep pool
  | .listener pid => if r.exited then none else r.listenerStep pid
  | .thread k => if r.exited then none else r.registrations[k]?.bind fun s => r.threadStep k s
  | .client k => r.registrations[k]?.bind fun s => r.clientStep k s

/-- The registration that a step gives its number, with that number. -/
def numbering (r : State) : Label → Option Registration
  | .listener _ =>
    match r.listener with
    | .number _ k => r.registrations[k]?.map fun s => { s with no := (r.record s.pool).2 }
    | _ => none
  | _ => none

/-- The reply that a step sends. -/
def replying (r : State) : Label → Option Name
  | .listener pid =>
    match r.listener with
    | .send k => r.registrations[k]?.map fun s => s.sendInfo pid
    | _ => none
  | _ => none

end State

end CachelibArchive.ClientServer.Registry
