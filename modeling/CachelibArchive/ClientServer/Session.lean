import CachelibArchive.ClientServer.Message
import CachelibArchive.Core.Run
import Mathlib.Algebra.GroupWithZero.Nat
import Mathlib.Algebra.Order.Ring.Rat

/-!
# Sessions

A session is one client object, the server thread `sharedMemCtl` that serves it, the
message they share and three semaphores. The client runs the statements of its calls,
destructor last; the server spins or sleeps on `semaphore`, dispatches on the request
code and runs the arm of the switch. A world is any number of sessions over one cache,
which may drop an item at any time. One label is one statement of one party.
-/

namespace CachelibArchive.ClientServer

/-! ## The client -/

/-- A client object after `addpool`. -/
structure CachelibClient where
  /-- Pool id returned by the server. -/
  pid : Int
  /-- Name passed to `addpool`. -/
  poolName : List UInt8

/-- `this->prefix`: the pool name and an underscore. -/
def CachelibClient.keyPrefix (c : CachelibClient) : List UInt8 := c.poolName ++ [95]

/-- `(this->prefix+key).c_str()` -/
def CachelibClient.prefixed (c : CachelibClient) (key : List UInt8) : CString :=
  .ofBytes (c.keyPrefix ++ key)

/-- Statements of the client, up to what the session can observe. -/
inductive Stmt where
  /-- `while(sem_trywait(this->semaphore_Server)!=0);` -/
  | tryServer
  /-- `while(sem_wait(this->semaphore_Server)!=0);` -/
  | waitServer
  /-- An assignment to the message. -/
  | write (w : Write)
  /-- `sem_post(this->semaphore);` -/
  | post
  /-- `while(sem_trywait(this->semaphore_GetBack)!=0);` -/
  | tryGetBack
  /-- `memset(this->getValue,0,sizeof(this->getValue));` -/
  | clearGetValue
  /-- `double randomNum = dis(gen);` and the branch on it -/
  | draw
  /-- `strcpy(this->getValue,message->value);` -/
  | takeValue
  /-- `sem_post(this->semaphore_Server);` -/
  | postServer
  /-- `if(strlen(this->getValue)!=0) this->getHit++;` -/
  | countHit
  /-- `return this->getValue;` -/
  | ret
  deriving DecidableEq

/-- The branch `randomNum>=0` of `getKV`. -/
def hitBranch : List Stmt := [.takeValue, .postServer, .countHit, .ret]

/-- The other branch of `getKV`. -/
def missBranch : List Stmt := [.postServer, .ret]

/-- `CachelibClient::setKV` -/
def setKV (c : CachelibClient) (key value : List UInt8) : List Stmt :=
  [.tryServer,
   .write (.ctrl sigSet), .write (.pid c.pid), .write .clearKey, .write .clearValue,
   .write (.putKey (c.prefixed key)), .write (.putValue (.ofBytes value)),
   .post]

/-- `CachelibClient::getKV` -/
def getKV (c : CachelibClient) (key : List UInt8) : List Stmt :=
  [.waitServer,
   .write (.ctrl sigGet), .write .clearKey, .write .clearValue,
   .write (.putKey (c.prefixed key)),
   .post, .tryGetBack, .clearGetValue, .draw]

/-- `CachelibClient::delKV` -/
def delKV (c : CachelibClient) (key : List UInt8) : List Stmt :=
  [.tryServer,
   .write (.ctrl sigDel), .write .clearKey, .write .clearValue,
   .write (.putKey (c.prefixed key)),
   .post]

/-- `CachelibClient::~CachelibClient`, up to the release of its mappings. -/
def destructor : List Stmt := [.tryServer, .write (.ctrl sigClose), .post]

/-- A call on a client object. -/
inductive Call where
  | setKV (key value : List UInt8)
  | getKV (key : List UInt8)
  | delKV (key : List UInt8)
  deriving DecidableEq

/-- What happens to a client object after `addpool`. -/
inductive Action where
  | call (c : Call)
  | destroy
  deriving DecidableEq

/-- The statements of an action. -/
def Action.stmts (c : CachelibClient) : Action → List Stmt
  | .call (.setKV key value) => ClientServer.setKV c key value
  | .call (.getKV key) => ClientServer.getKV c key
  | .call (.delKV key) => ClientServer.delKV c key
  | .destroy => destructor

/-- A sequence of calls ended by the destructor. -/
def lifetime (calls : List Call) : List Action := calls.map .call ++ [.destroy]

/-- The statements of a sequence of actions. -/
def program (c : CachelibClient) (actions : List Action) : List Stmt :=
  actions.flatMap (Action.stmts c)

/-- State of a client. -/
structure Client where
  /-- Statements still to run. -/
  todo : List Stmt
  /-- The array `getValue`. -/
  getValue : CharBuffer
  /-- The counter `getHit`. -/
  getHit : Nat
  /-- Strings returned by `getKV` so far. -/
  replies : List CString
  /-- Requests posted so far. -/
  posted : List Request

/-! ## The server thread -/

/-- Statements of the arms of the switch. -/
inductive ServerStmt where
  /-- `set_(getMessage->pid,getMessage->key,getMessage->value);` -/
  | set
  /-- `res = get_(getMessage->key, getMessage->value);` -/
  | get
  /-- `del_(getMessage->key);` -/
  | del
  /-- `sem_post(semaphore_GetBack);` -/
  | postGetBack
  /-- `sem_post(semaphore_Server);` -/
  | postServer
  /-- `available = false;` -/
  | stop
  deriving DecidableEq

/-- The arm `case SIG_CLOSE`. -/
def closeArm : List ServerStmt := [.postServer, .stop]

/-- The statements run for a request code. -/
def arm (ctrl : Int) : List ServerStmt :=
  if ctrl = sigSet then [.set, .postServer]
  else if ctrl = sigGet then [.get, .postGetBack]
  -- no break: deletion runs on into the arm of SIG_CLOSE
  else if ctrl = sigDel then [.del, .postServer] ++ closeArm
  else if ctrl = sigClose then closeArm
  else []

/-- Where the server thread is. -/
inductive ServerPc where
  /-- In the `sem_trywait` loop. -/
  | spin (waitCount : Nat)
  /-- In `sem_wait`. -/
  | asleep
  /-- At the switch, having taken `semaphore`. -/
  | dispatch
  /-- In an arm of the switch. -/
  | run (todo : List ServerStmt)
  /-- Behind the loop. -/
  | left
  deriving DecidableEq

/-- `MAX_WAIT` -/
def maxWait : Nat := 100000000

/-- A request as executed on the cache, with its result. -/
inductive Executed where
  | set (pid : Int) (key value : CString) (stored : Bool)
  | get (key : CString) (found : Option CString)
  | del (key : CString) (removed : Bool)
  deriving DecidableEq

/-- The request that was executed. -/
def Executed.request : Executed → Request
  | .set pid key value _ => .set pid key value
  | .get key _ => .get key
  | .del key _ => .del key

/-- State of a server thread. -/
structure Server where
  /-- Program counter. -/
  pc : ServerPc
  /-- The loop condition. -/
  available : Bool
  /-- Request codes dispatched so far. -/
  handled : List Int
  /-- Requests executed on the cache so far. -/
  executed : List Executed

/-! ## Sessions -/

/-- One session. -/
structure Session where
  /-- The client. -/
  client : Client
  /-- Its server thread. -/
  server : Server
  /-- The shared message. -/
  message : ShmStru
  /-- The server has a request to handle. -/
  semaphore : Nat
  /-- The message is free. -/
  semaphoreServer : Nat
  /-- The client has a reply to read. -/
  semaphoreGetBack : Nat

namespace Session

/-- A session whose client has attached and has these statements to run. -/
def start (todo : List Stmt) : Session where
  client := { todo, getValue := .zero, getHit := 0, replies := [], posted := [] }
  server := { pc := .spin 0, available := true, handled := [], executed := [] }
  message := { ctrl := 0, pid := 0, text := .zero }
  semaphore := 0
  semaphoreServer := 1
  semaphoreGetBack := 0

/-- The client goes on with `rest`. -/
def goto (s : Session) (rest : List Stmt) : Session := { s with client.todo := rest }

/-- A value of `dis(gen)`, a `uniform_real_distribution` over 0 to 1. -/
abbrev Draw := { r : ℚ // 0 ≤ r ∧ r < 1 }

/-- One statement of the client; undefined when it blocks or none is left. -/
def clientStep (randomNum : Draw) (s : Session) : Option Session :=
  match s.client.todo with
  | [] => none
  | .tryServer :: rest =>
    if 0 < s.semaphoreServer then
      some { s.goto rest with semaphoreServer := s.semaphoreServer - 1 }
    else some s
  | .waitServer :: rest =>
    if 0 < s.semaphoreServer then
      some { s.goto rest with semaphoreServer := s.semaphoreServer - 1 }
    else none
  | .write w :: rest => some { s.goto rest with message := s.message.write w }
  | .post :: rest =>
    some { s.goto rest with
      semaphore := s.semaphore + 1
      client.posted := s.client.posted ++ [s.message.request] }
  | .tryGetBack :: rest =>
    if 0 < s.semaphoreGetBack then
      some { s.goto rest with semaphoreGetBack := s.semaphoreGetBack - 1 }
    else some s
  | .clearGetValue :: rest =>
    some { s.goto rest with client.getValue := s.client.getValue.clear 0 shmValueSize }
  | .draw :: rest => some (s.goto ((if 0 ≤ randomNum.1 then hitBranch else missBranch) ++ rest))
  | .takeValue :: rest =>
    some { s.goto rest with client.getValue := s.client.getValue.strcpy 0 s.message.value }
  | .postServer :: rest => some { s.goto rest with semaphoreServer := s.semaphoreServer + 1 }
  | .countHit :: rest =>
    some { s.goto rest with
      client.getHit := s.client.getHit +
        if (s.client.getValue.cstr 0 shmValueSize).length ≠ 0 then 1 else 0 }
  | .ret :: rest =>
    some { s.goto rest with
      client.replies := s.client.replies ++ [s.client.getValue.cstr 0 shmValueSize] }

/-- Effect of a statement of the switch on the cache and the session, and the request it
executed. -/
def execStmt (allocated : Bool) (cache : Cache) (s : Session) :
    ServerStmt → Cache × Session × Option Executed
  | .set =>
    let m := s.message
    let (cache', stored) := set_ cache m.pid m.key m.value allocated
    (cache', s, some (.set m.pid m.key m.value stored))
  | .get =>
    let (m', _) := get_ cache s.message.key s.message
    (cache, { s with message := m' }, some (.get s.message.key (cache.find s.message.key)))
  | .del =>
    let (cache', removed) := del_ cache s.message.key
    (cache', s, some (.del s.message.key removed))
  | .postGetBack => (cache, { s with semaphoreGetBack := s.semaphoreGetBack + 1 }, none)
  | .postServer => (cache, { s with semaphoreServer := s.semaphoreServer + 1 }, none)
  | .stop => (cache, { s with server.available := false }, none)

/-- The server goes on at `pc`. -/
def serverAt (s : Session) (pc : ServerPc) : Session := { s with server.pc := pc }

/-- One statement of the server thread; undefined when it blocks or has left its loop. -/
def serverStep (allocated : Bool) (cache : Cache) (s : Session) :
    Option (Cache × Session × Option Executed) :=
  match s.server.pc with
  | .spin waitCount =>
    if 0 < s.semaphore then
      some (cache, { s.serverAt .dispatch with semaphore := s.semaphore - 1 }, none)
    else if maxWait < waitCount then some (cache, s.serverAt .asleep, none)
    else some (cache, s.serverAt (.spin (waitCount + 1)), none)
  | .asleep =>
    if 0 < s.semaphore then
      some (cache, { s.serverAt .dispatch with semaphore := s.semaphore - 1 }, none)
    else none
  | .dispatch =>
    some (cache, { s.serverAt (.run (arm s.message.ctrl)) with
      server.handled := s.server.handled ++ [s.message.ctrl] }, none)
  | .run (stmt :: rest) =>
    let (cache', s', e) := s.execStmt allocated cache stmt
    some (cache',
      { s'.serverAt (.run rest) with server.executed := s.server.executed ++ e.toList }, e)
  | .run [] =>
    some (cache, s.serverAt (if s.server.available then .spin 0 else .left), none)
  | .left => none

end Session

/-! ## The world -/

/-- Sessions over one cache, with the requests executed so far in order. -/
structure World (ι : Type*) where
  /-- CacheLib. -/
  cache : Cache
  /-- The sessions. -/
  session : ι → Session
  /-- Every execution on the cache, by session. -/
  log : List (ι × Executed)

/-- What happens next. -/
inductive Label (ι : Type*) where
  /-- A client runs a statement. -/
  | client (i : ι) (randomNum : Session.Draw)
  /-- A server thread runs a statement. -/
  | server (i : ι) (allocated : Bool)
  /-- CacheLib drops an item. -/
  | evict (key : CString)

namespace World

variable {ι : Type*} [DecidableEq ι]

/-- Every session starts with its calls ahead, the destructor last. -/
def start (client : ι → CachelibClient) (calls : ι → List Call) : World ι where
  cache := fun _ => none
  session i := .start (program (client i) (lifetime (calls i)))
  log := []

/-- One step of the world. -/
def step (w : World ι) : Label ι → Option (World ι)
  | .client i randomNum =>
    ((w.session i).clientStep randomNum).map fun s =>
      { w with session := Function.update w.session i s }
  | .server i allocated =>
    ((w.session i).serverStep allocated w.cache).map fun (cache, s, e) =>
      { cache, session := Function.update w.session i s,
        log := w.log ++ e.toList.map fun e => (i, e) }
  | .evict key => some { w with cache := Function.update w.cache key none }

end World

end CachelibArchive.ClientServer
