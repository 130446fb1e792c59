import CachelibArchive.ClientServer.Action
import Mathlib.Data.List.Forall2

/-!
# The phases of a session

Between two requests exactly one party holds the right to touch the message: it lies
in one of the three semaphores or with the client or with the server. A phase says where
it lies, what each party still has to run and how the requests posted so far relate to
the ones executed. The switch arm of a deletion is the only statement that leaves the
phases.
-/

namespace CachelibArchive.ClientServer

/-! ## Who holds the message -/

namespace Session

/-- The right to the message, as far as it lies in a semaphore. -/
def tokens (s : Session) : Nat := s.semaphore + s.semaphoreServer + s.semaphoreGetBack

/-- The counts of the semaphores. -/
def Counts (s : Session) (a b c : Nat) : Prop :=
  s.semaphore = a ∧ s.semaphoreServer = b ∧ s.semaphoreGetBack = c

end Session

/-- The next synchronisation ahead is a post: the client is writing or reading the message. -/
def holdsMessage : List Stmt → Bool
  | [] => false
  | .post :: _ => true
  | .postServer :: _ => true
  -- both branches post semaphore_Server
  | .draw :: _ => true
  | .tryServer :: _ => false
  | .waitServer :: _ => false
  | .tryGetBack :: _ => false
  | _ :: rest => holdsMessage rest

namespace Session

/-- The client is writing or reading the message. -/
def clientInside (s : Session) : Bool := holdsMessage s.client.todo

/-- The server is processing the message: it has taken `semaphore` and a post is ahead. -/
def serverInside (s : Session) : Bool :=
  match s.server.pc with
  | .dispatch => true
  | .run todo => todo.any fun stmt => stmt == .postServer || stmt == .postGetBack
  | _ => false

/-- Number of parties inside the message. -/
def inside (s : Session) : Nat := s.clientInside.toNat + s.serverInside.toNat

end Session

theorem holdsMessage_program (c : CachelibClient) (rest : List Action) :
    holdsMessage (program c rest) = false := by
  obtain h | ⟨todo, h | h⟩ := program_cases c rest <;> rw [h] <;> rfl

theorem holdsMessage_after (c : CachelibClient) (a : Action) (rest : List Action) :
    holdsMessage (a.after ++ program c rest) = false := by
  cases a with
  | destroy => exact holdsMessage_program c rest
  | call k =>
    cases k with
    | getKV key => rfl
    | setKV key value => exact holdsMessage_program c rest
    | delKV key => exact holdsMessage_program c rest

theorem holdsMessage_writes (ws : List Write) (todo : List Stmt) :
    holdsMessage (ws.map .write ++ .post :: todo) = true := by
  induction ws with
  | nil => rfl
  | cons w ws ih => exact ih

/-! ## Requests posted and executed -/

/-- The replies of the gets among the executed requests. -/
def answers (es : List Executed) : List CString :=
  es.filterMap fun
    | .get _ found => some (reply found)
    | _ => none

/-- The message is as an action has written it. -/
def Session.Loaded (c : CachelibClient) (s : Session) (a : Action) : Prop :=
  ∃ m, s.message = ShmStru.writeAll m (a.writes c)

/-- The request posted for an action. -/
def Posted (c : CachelibClient) (a : Action) (r : Request) : Prop :=
  ∃ m, r = (ShmStru.writeAll m (a.writes c)).request

theorem Posted.ctrl_eq {c : CachelibClient} {a : Action} {r : Request} (h : Posted c a r) :
    r.ctrl = a.ctrl := by
  obtain ⟨m, rfl⟩ := h
  simp

theorem Posted.eq_request {c : CachelibClient} {a : Action} {r : Request} (h : Posted c a r)
    (hf : a.Fits c) : r = a.request c := by
  obtain ⟨m, rfl⟩ := h
  exact Action.request_writeAll hf m

namespace Session

/-- How the requests posted for `done` stand: those in `open'` wait for the server, and the
replies in `unread` for the client. -/
structure Book (c : CachelibClient) (s : Session) (done : List Action) (open' : List Request)
    (unread : List CString) : Prop where
  /-- Every action done has posted its request. -/
  posted : List.Forall₂ (Posted c) done s.client.posted
  /-- The server has executed all but the open ones, in order. -/
  executed : s.server.executed.map Executed.request ++ open' = s.client.posted
  /-- The client has returned all replies but the unread ones, in order. -/
  answered : (∀ a ∈ done, a.Fits c) → answers s.server.executed = s.client.replies ++ unread
  /-- None of the executed requests was a deletion. -/
  noDel : ∀ e ∈ s.server.executed, e.request.ctrl ≠ sigDel

/-- The server is between two requests and has executed every request it dispatched. -/
structure Quiet (s : Session) : Prop where
  /-- The loop goes on. -/
  available : s.server.available = true
  /-- It waits, or is about to. -/
  pc : (∃ n, s.server.pc = .spin n) ∨ s.server.pc = .asleep ∨ s.server.pc = .run []
  /-- Nothing was dispatched but what was executed. -/
  handled : s.server.handled = s.server.executed.map fun e => e.request.ctrl

/-- The end of a get, the message released: its reply is in `getValue`. -/
def Returning (s : Session) (tail : List Stmt) (unread : List CString) : Prop :=
  (tail = [] ∧ unread = []) ∨
    ((tail = [.ret] ∨ tail = [.countHit, .ret]) ∧
      unread = [s.client.getValue.cstr 0 shmValueSize])

/-- The part of a get that reads the message. -/
def Reading (s : Session) (tail : List Stmt) (unread : List CString) : Prop :=
  ((tail = [.clearGetValue, .draw] ∨ tail = [.draw] ∨ tail = hitBranch) ∧
      unread = [s.message.value]) ∨
    (tail = [.postServer, .countHit, .ret] ∧ unread = [s.client.getValue.cstr 0 shmValueSize])

/-- The phases of a session that has done the actions `done` and has `rest` to do. -/
inductive Phase (c : CachelibClient) (s : Session) : List Action → List Action → Prop where
  /-- The message is free. -/
  | free {done rest : List Action} {t : List Stmt} {u : List CString}
      (counts : s.Counts 0 1 0) (todo : s.client.todo = t ++ program c rest)
      (quiet : s.Quiet) (returning : s.Returning t u) (book : s.Book c done [] u) :
      Phase c s done rest
  /-- The client is writing the request of `a`. -/
  | writing {done rest : List Action} {a : Action} {w ws : List Write}
      (counts : s.Counts 0 0 0)
      (todo : s.client.todo = ws.map .write ++ .post :: (a.after ++ program c rest))
      (writes : a.writes c = w ++ ws) (message : ∃ m, s.message = ShmStru.writeAll m w)
      (quiet : s.Quiet) (book : s.Book c done [] []) : Phase c s done (a :: rest)
  /-- A request is posted. -/
  | pending {done rest : List Action} {a : Action} (counts : s.Counts 1 0 0)
      (todo : s.client.todo = a.after ++ program c rest) (loaded : s.Loaded c a)
      (quiet : s.Quiet) (book : s.Book c (done ++ [a]) [s.message.request] []) :
      Phase c s (done ++ [a]) rest
  /-- The server has taken it. -/
  | dispatched {done rest : List Action} {a : Action} (counts : s.Counts 0 0 0)
      (todo : s.client.todo = a.after ++ program c rest) (loaded : s.Loaded c a)
      (pc : s.server.pc = .dispatch) (available : s.server.available = true)
      (handled : s.server.handled = s.server.executed.map fun e => e.request.ctrl)
      (book : s.Book c (done ++ [a]) [s.message.request] []) : Phase c s (done ++ [a]) rest
  /-- The server is in an arm other than that of a deletion. -/
  | serving {done rest : List Action} {a : Action} (counts : s.Counts 0 0 0)
      (todo : s.client.todo = a.after ++ program c rest) (loaded : s.Loaded c a)
      (pc : s.server.pc = .run (arm a.ctrl)) (noDel : a.ctrl ≠ sigDel)
      (available : s.server.available = true)
      (handled : s.server.handled = (s.server.executed.map fun e => e.request.ctrl) ++ [a.ctrl])
      (book : s.Book c (done ++ [a]) [s.message.request] []) : Phase c s (done ++ [a]) rest
  /-- A set is executed, its post ahead. -/
  | stored {done rest : List Action} (counts : s.Counts 0 0 0)
      (todo : s.client.todo = program c rest) (pc : s.server.pc = .run [.postServer])
      (available : s.server.available = true)
      (handled : s.server.handled = s.server.executed.map fun e => e.request.ctrl)
      (book : s.Book c done [] []) : Phase c s done rest
  /-- A get is executed, its post ahead. -/
  | found {done rest : List Action} (counts : s.Counts 0 0 0)
      (todo : s.client.todo = .tryGetBack :: .clearGetValue :: .draw :: program c rest)
      (pc : s.server.pc = .run [.postGetBack]) (available : s.server.available = true)
      (handled : s.server.handled = s.server.executed.map fun e => e.request.ctrl)
      (book : s.Book c done [] [s.message.value]) : Phase c s done rest
  /-- A reply is posted. -/
  | replied {done rest : List Action} (counts : s.Counts 0 0 1)
      (todo : s.client.todo = .tryGetBack :: .clearGetValue :: .draw :: program c rest)
      (quiet : s.Quiet) (book : s.Book c done [] [s.message.value]) : Phase c s done rest
  /-- The client is reading it. -/
  | reading {done rest : List Action} {t : List Stmt} {u : List CString}
      (counts : s.Counts 0 0 0) (todo : s.client.todo = t ++ program c rest)
      (quiet : s.Quiet) (reading : s.Reading t u) (book : s.Book c done [] u) :
      Phase c s done rest
  /-- The server has handled `SIG_CLOSE`. -/
  | closed {done : List Action} (counts : s.Counts 0 1 0) (todo : s.client.todo = [])
      (pc : s.server.pc = .run [.stop] ∨
        s.server.available = false ∧ (s.server.pc = .run [] ∨ s.server.pc = .left))
      (handled : s.server.handled.getLast? = some sigClose)
      (book : s.Book c done [.close] []) : Phase c s done []

/-- A new session is free. -/
theorem phase_start (c : CachelibClient) (actions : List Action) :
    (start (program c actions)).Phase c [] actions :=
  .free (t := []) (u := []) ⟨rfl, rfl, rfl⟩ rfl ⟨rfl, .inl ⟨0, rfl⟩, rfl⟩ (.inl ⟨rfl, rfl⟩)
    ⟨.nil, rfl, fun _ => rfl, fun _ h => absurd h List.not_mem_nil⟩

/-! ## A statement of the client -/

/-- Waiting for the message takes it when it is free. -/
theorem clientStep_acquire {s : Session} {a : Action} {todo : List Stmt} {r : Draw}
    (hS : s.semaphoreServer = 1) (ht : s.client.todo = a.acquire :: todo) :
    s.clientStep r = some { s.goto todo with semaphoreServer := 0 } := by
  have ha : a.acquire = .tryServer ∨ a.acquire = .waitServer := by
    cases a with
    | destroy => exact .inl rfl
    | call k => cases k <;> simp [Action.acquire]
  obtain ha | ha := ha <;> simp [clientStep, ht, ha, hS]

/-- With no token for it, a client outside the message does nothing. -/
theorem clientStep_blocked {c : CachelibClient} {s s' : Session} {a : Action}
    {rest : List Action} {r : Draw} (hS : s.semaphoreServer = 0) (hB : s.semaphoreGetBack = 0)
    (ht : s.client.todo = a.after ++ program c rest) (h : s.clientStep r = some s') : s' = s := by
  have hcases : s.client.todo = [] ∨ ∃ todo, s.client.todo = .tryServer :: todo ∨
      s.client.todo = .waitServer :: todo ∨ s.client.todo = .tryGetBack :: todo := by
    rw [ht]
    obtain hp | ⟨todo, hp | hp⟩ := program_cases c rest <;> rw [hp] <;> cases a with
    | destroy => simp [Action.after]
    | call k => cases k <;> simp [Action.after]
  unfold clientStep at h
  obtain ht | ⟨todo, ht | ht | ht⟩ := hcases <;> simp [ht, hS, hB] at h
  · exact h.symm
  · exact h.symm

/-- The books only look at the requests and the replies. -/
theorem Book.frame {c : CachelibClient} {s s' : Session} {done : List Action}
    {open' : List Request} {unread : List CString} (h : s.Book c done open' unread)
    (hp : s'.client.posted = s.client.posted) (he : s'.server.executed = s.server.executed)
    (hr : s'.client.replies = s.client.replies) : s'.Book c done open' unread :=
  ⟨hp ▸ h.posted, by rw [he, hp, h.executed], fun hf => by rw [he, hr, h.answered hf], he ▸ h.noDel⟩

theorem Quiet.frame {s s' : Session} (h : s.Quiet) (hs : s'.server = s.server) : s'.Quiet := by
  obtain ⟨ha, hp, hh⟩ := h
  constructor <;> rw [hs] <;> assumption

/-- Posting a request opens it. -/
theorem Book.post {c : CachelibClient} {s : Session} {done : List Action} {a : Action}
    {rest : List Stmt} {n : Nat} (h : s.Book c done [] []) (hl : s.Loaded c a) :
    Book c { s.goto rest with
      semaphore := n, client.posted := s.client.posted ++ [s.message.request] }
      (done ++ [a]) [s.message.request] [] := by
  obtain ⟨m, hm⟩ := hl
  refine ⟨?_, ?_, fun hf => h.answered fun b hb => hf b (List.mem_append_left _ hb), h.noDel⟩
  · exact List.rel_append h.posted (.cons ⟨m, by rw [hm]⟩ .nil)
  · show _ = s.client.posted ++ _
    rw [← h.executed, List.append_nil]
    rfl

/-- A client that is out of the message comes back from its call or waits for the message. -/
theorem clientStep_free {c : CachelibClient} {s s' : Session} {done rest : List Action}
    {tail : List Stmt} {unread : List CString} {r : Draw} (counts : s.Counts 0 1 0)
    (todo : s.client.todo = tail ++ program c rest) (quiet : s.Quiet)
    (returning : s.Returning tail unread) (book : s.Book c done [] unread)
    (h : s.clientStep r = some s') : s'.Phase c done rest := by
  obtain ⟨rfl, rfl⟩ | ⟨rfl | rfl, rfl⟩ := returning
  · cases rest with
    | nil => simp [clientStep, todo] at h
    | cons a rest =>
      rw [List.nil_append, program_cons] at todo
      rw [clientStep_acquire counts.2.1 todo, Option.some.injEq] at h
      subst h
      exact .writing (w := []) ⟨counts.1, rfl, counts.2.2⟩ rfl rfl ⟨_, rfl⟩
        (quiet.frame rfl) (book.frame rfl rfl rfl)
  · simp only [clientStep, todo, List.cons_append, List.nil_append, Option.some.injEq] at h
    subst h
    exact .free (t := []) (u := []) counts rfl (quiet.frame rfl) (.inl ⟨rfl, rfl⟩)
      ⟨book.posted, book.executed, fun hf => (book.answered hf).trans (List.append_nil _).symm,
        book.noDel⟩
  · simp only [clientStep, todo, List.cons_append, List.nil_append, Option.some.injEq] at h
    subst h
    exact .free (t := [.ret]) counts rfl (quiet.frame rfl) (.inr ⟨.inl rfl, rfl⟩)
      (book.frame rfl rfl rfl)

/-- A client that is reading the message goes on to release it. -/
theorem clientStep_reading {c : CachelibClient} {s s' : Session} {done rest : List Action}
    {tail : List Stmt} {unread : List CString} {r : Draw} (counts : s.Counts 0 0 0)
    (todo : s.client.todo = tail ++ program c rest) (quiet : s.Quiet)
    (reading : s.Reading tail unread) (book : s.Book c done [] unread)
    (h : s.clientStep r = some s') : s'.Phase c done rest := by
  obtain ⟨rfl | rfl | rfl, rfl⟩ | ⟨rfl, rfl⟩ := reading
  · simp only [clientStep, todo, List.cons_append, List.nil_append, Option.some.injEq] at h
    subst h
    exact .reading (t := [.draw]) counts rfl (quiet.frame rfl) (.inl ⟨.inr (.inl rfl), rfl⟩)
      (book.frame rfl rfl rfl)
  · simp only [clientStep, todo, List.cons_append, List.nil_append, if_pos r.2.1,
      Option.some.injEq] at h
    subst h
    exact .reading (t := hitBranch) counts rfl (quiet.frame rfl)
      (.inl ⟨.inr (.inr rfl), rfl⟩) (book.frame rfl rfl rfl)
  · simp only [clientStep, todo, hitBranch, List.cons_append, List.nil_append,
      Option.some.injEq] at h
    subst h
    refine .reading (t := [.postServer, .countHit, .ret]) counts rfl (quiet.frame rfl)
      (.inr ⟨rfl, rfl⟩) ?_
    have hcopy : (s.client.getValue.strcpy 0 s.message.value).cstr 0 shmValueSize =
        s.message.value := by
      rw [CharBuffer.cstr_strcpy]
      exact CString.take_of_length_le (CharBuffer.length_cstr_le _ _ _)
    exact (hcopy.symm ▸ book).frame rfl rfl rfl
  · simp only [clientStep, todo, List.cons_append, List.nil_append, Option.some.injEq] at h
    subst h
    exact .free (t := [.countHit, .ret]) ⟨counts.1, by rw [counts.2.1], counts.2.2⟩ rfl
      (quiet.frame rfl) (.inr ⟨.inr rfl, rfl⟩) (book.frame rfl rfl rfl)

/-- A client that is writing its request goes on to post it. -/
theorem clientStep_writing {c : CachelibClient} {s s' : Session} {done rest : List Action}
    {a : Action} {written ws : List Write} {r : Draw} (counts : s.Counts 0 0 0)
    (todo : s.client.todo = ws.map .write ++ .post :: (a.after ++ program c rest))
    (writes : a.writes c = written ++ ws) (message : ∃ m, s.message = ShmStru.writeAll m written)
    (quiet : s.Quiet) (book : s.Book c done [] []) (h : s.clientStep r = some s') :
    s'.Phase c done (a :: rest) ∨ s'.Phase c (done ++ [a]) rest := by
  obtain ⟨m, hm⟩ := message
  cases ws with
  | nil =>
    simp only [clientStep, todo, List.map_nil, List.nil_append, Option.some.injEq] at h
    subst h
    have hl : s.Loaded c a := ⟨m, by rw [hm, writes, List.append_nil]⟩
    exact .inr (.pending ⟨by rw [counts.1], counts.2⟩ rfl hl (quiet.frame rfl) (book.post hl))
  | cons w ws =>
    simp only [clientStep, todo, List.map_cons, List.cons_append, Option.some.injEq] at h
    subst h
    refine .inl (.writing (w := written ++ [w]) counts rfl (by simp [writes]) ⟨m, ?_⟩
      (quiet.frame rfl) (book.frame rfl rfl rfl))
    rw [ShmStru.writeAll_append, ← hm]
    rfl

/-- A statement of the client leads from phase to phase. -/
theorem Phase.client {c : CachelibClient} {s s' : Session} {done rest : List Action} {r : Draw}
    (h : s.Phase c done rest) (hs : s.clientStep r = some s') :
    ∃ done' rest', done' ++ rest' = done ++ rest ∧ s'.Phase c done' rest' := by
  cases h with
  | free counts todo quiet returning book =>
    exact ⟨_, _, rfl, clientStep_free counts todo quiet returning book hs⟩
  | writing counts todo writes message quiet book =>
    obtain h' | h' := clientStep_writing counts todo writes message quiet book hs
    · exact ⟨_, _, rfl, h'⟩
    · exact ⟨_, _, by simp, h'⟩
  | pending counts todo loaded quiet book =>
    obtain rfl := clientStep_blocked counts.2.1 counts.2.2 todo hs
    exact ⟨_, _, rfl, .pending counts todo loaded quiet book⟩
  | dispatched counts todo loaded pc available handled book =>
    obtain rfl := clientStep_blocked counts.2.1 counts.2.2 todo hs
    exact ⟨_, _, rfl, .dispatched counts todo loaded pc available handled book⟩
  | serving counts todo loaded pc noDel available handled book =>
    obtain rfl := clientStep_blocked counts.2.1 counts.2.2 todo hs
    exact ⟨_, _, rfl, .serving counts todo loaded pc noDel available handled book⟩
  | stored counts todo pc available handled book =>
    obtain rfl := clientStep_blocked (a := .destroy) counts.2.1 counts.2.2 todo hs
    exact ⟨_, _, rfl, .stored counts todo pc available handled book⟩
  | found counts todo pc available handled book =>
    obtain rfl := clientStep_blocked (a := .call (.getKV [])) counts.2.1 counts.2.2 todo hs
    exact ⟨_, _, rfl, .found counts todo pc available handled book⟩
  | replied counts todo quiet book =>
    simp only [clientStep, todo, counts.2.2, Nat.zero_lt_one, if_true, Option.some.injEq] at hs
    subst hs
    exact ⟨_, _, rfl, .reading (t := [.clearGetValue, .draw]) ⟨counts.1, counts.2.1, rfl⟩ rfl
      (quiet.frame rfl) (.inl ⟨.inl rfl, rfl⟩) (book.frame rfl rfl rfl)⟩
  | reading counts todo quiet reading book =>
    exact ⟨_, _, rfl, clientStep_reading counts todo quiet reading book hs⟩
  | closed counts todo pc handled book => simp [clientStep, todo] at hs

/-! ## A statement of the server -/

/-- With nothing posted, a waiting server goes on waiting. -/
theorem serverStep_quiet {s : Session} {b : Bool} {cache : Cache}
    {out : Cache × Session × Option Executed} (hA : s.semaphore = 0) (hq : s.Quiet)
    (h : s.serverStep b cache = some out) :
    ∃ pc, out = (cache, s.serverAt pc, none) ∧ (s.serverAt pc).Quiet := by
  obtain ⟨ha, hp, hh⟩ := hq
  obtain ⟨n, hp⟩ | hp | hp := hp
  · simp only [serverStep, hp, hA, Nat.lt_irrefl, if_false] at h
    split_ifs at h <;> cases h
    · exact ⟨.asleep, rfl, ha, .inr (.inl rfl), hh⟩
    · exact ⟨.spin (n + 1), rfl, ha, .inl ⟨_, rfl⟩, hh⟩
  · simp [serverStep, hp, hA] at h
  · simp only [serverStep, hp, ha, if_true, Option.some.injEq] at h
    exact ⟨.spin 0, h.symm, ha, .inl ⟨0, rfl⟩, hh⟩

/-- With a request posted, it takes it, or is about to wait. -/
theorem serverStep_pending {s : Session} {b : Bool} {cache : Cache}
    {out : Cache × Session × Option Executed} (hA : s.semaphore = 1) (hq : s.Quiet)
    (h : s.serverStep b cache = some out) :
    out = (cache, { s.serverAt .dispatch with semaphore := 0 }, none) ∨
      out = (cache, s.serverAt (.spin 0), none) := by
  obtain ⟨ha, ⟨n, hp⟩ | hp | hp, hh⟩ := hq <;>
    simp only [serverStep, hp, hA, ha, Nat.lt_one_iff, if_true, Option.some.injEq] at h
  · exact .inl h.symm
  · exact .inl h.symm
  · exact .inr h.symm

/-- Executing the open request settles it. -/
theorem Book.execute {c : CachelibClient} {s s' : Session} {done : List Action} {r : Request}
    {e : Executed} {unread : List CString} (h : s.Book c done [r] []) (her : e.request = r)
    (hnd : r.ctrl ≠ sigDel)
    (hp : s'.client.posted = s.client.posted)
    (he : s'.server.executed = s.server.executed ++ [e])
    (hr : s'.client.replies = s.client.replies)
    (hu : (∀ a ∈ done, a.Fits c) → answers [e] = unread) : s'.Book c done [] unread := by
  refine ⟨hp ▸ h.posted, ?_, fun hf => ?_, fun e' he' => ?_⟩
  · rw [he, hp, List.map_append, List.append_nil, ← h.executed, ← her]
    rfl
  · rw [he, hr, answers, List.filterMap_append, ← answers, ← answers, h.answered hf,
      List.append_nil, hu hf]
  · obtain he' | he' := List.mem_append.mp (he ▸ he')
    · exact h.noDel e' he'
    · rwa [List.mem_singleton.mp he', her]

/-- The arm of the switch, where it is not that of a deletion, settles the open request. -/
theorem serverStep_serving {c : CachelibClient} {s : Session} {done rest : List Action}
    {a : Action} {b : Bool} {cache : Cache} {out : Cache × Session × Option Executed}
    (counts : s.Counts 0 0 0) (todo : s.client.todo = a.after ++ program c rest)
    (loaded : s.Loaded c a) (pc : s.server.pc = .run (arm a.ctrl)) (noDel : a.ctrl ≠ sigDel)
    (available : s.server.available = true)
    (handled : s.server.handled = (s.server.executed.map fun e => e.request.ctrl) ++ [a.ctrl])
    (last : a = .destroy → rest = [])
    (book : s.Book c (done ++ [a]) [s.message.request] [])
    (h : s.serverStep b cache = some out) : out.2.1.Phase c (done ++ [a]) rest := by
  obtain ⟨m, hm⟩ := loaded
  have hctrl : s.message.ctrl = a.ctrl := by rw [hm, Action.ctrl_writeAll]
  have hnd : s.message.request.ctrl ≠ sigDel := by rwa [ShmStru.ctrl_request, hctrl]
  cases a with
  | destroy =>
    have hreq : s.message.request = .close := by rw [hm]; rfl
    simp only [serverStep, pc, Action.ctrl, show arm sigClose = [.postServer, .stop] from rfl,
      execStmt, Option.some.injEq] at h
    subst h
    obtain rfl := last rfl
    refine .closed ⟨counts.1, by simp [serverAt, counts.2.1], counts.2.2⟩ todo (.inl rfl) ?_ ?_
    · simp [serverAt, handled, Action.ctrl]
    · exact (hreq ▸ book).frame rfl (List.append_nil _) rfl
  | call k =>
    cases k with
    | setKV key value =>
      have hreq : s.message.request = .set s.message.pid s.message.key s.message.value :=
        if_pos hctrl
      simp only [serverStep, pc, Action.ctrl, show arm sigSet = [.set, .postServer] from rfl,
        execStmt, Option.some.injEq] at h
      subst h
      refine .stored counts todo rfl available ?_ (book.execute ?_ hnd rfl rfl rfl fun _ => rfl)
      · simp [serverAt, handled, Action.ctrl, Executed.request, Request.ctrl]
      · exact hreq.symm
    | getKV key =>
      have hreq : s.message.request = .get s.message.key :=
        (if_neg (by rw [hctrl]; exact (by decide : sigGet ≠ sigSet))).trans (if_pos hctrl)
      simp only [serverStep, pc, Action.ctrl, show arm sigGet = [.get, .postGetBack] from rfl,
        execStmt, Option.some.injEq] at h
      subst h
      refine .found counts todo rfl available ?_ (book.execute ?_ hnd rfl rfl rfl fun hf => ?_)
      · simp [serverAt, handled, Action.ctrl, Executed.request, Request.ctrl]
      · exact hreq.symm
      · have hz := Action.zeroAt_writeAll (hf _ (List.mem_append_right _ List.mem_cons_self)) m
        rw [← hm] at hz
        exact congrArg (fun v => [v]) (value_get_ cache s.message.key hz).symm
    | delKV key => exact absurd rfl noDel

/-- A statement of the server leads from phase to phase, unless it dispatches a deletion. -/
theorem Phase.server {c : CachelibClient} {s : Session} {calls : List Call}
    {done rest : List Action} {b : Bool} {cache : Cache} {out : Cache × Session × Option Executed}
    (h : s.Phase c done rest) (hl : done ++ rest = lifetime calls)
    (hdel : s.server.pc = .dispatch → s.message.ctrl ≠ sigDel)
    (hs : s.serverStep b cache = some out) : out.2.1.Phase c done rest := by
  cases h with
  | free counts todo quiet returning book =>
    obtain ⟨pc, rfl, hq⟩ := serverStep_quiet counts.1 quiet hs
    exact .free counts todo hq returning (book.frame rfl rfl rfl)
  | writing counts todo writes message quiet book =>
    obtain ⟨pc, rfl, hq⟩ := serverStep_quiet counts.1 quiet hs
    exact .writing counts todo writes message hq (book.frame rfl rfl rfl)
  | pending counts todo loaded quiet book =>
    obtain rfl | rfl := serverStep_pending counts.1 quiet hs
    · exact .dispatched ⟨rfl, counts.2⟩ todo loaded rfl quiet.available quiet.handled
        (book.frame rfl rfl rfl)
    · exact .pending counts todo loaded ⟨quiet.available, .inl ⟨0, rfl⟩, quiet.handled⟩
        (book.frame rfl rfl rfl)
  | @dispatched _ _ a counts todo loaded pc available handled book =>
    have hctrl : s.message.ctrl = a.ctrl := by
      obtain ⟨m, hm⟩ := loaded
      rw [hm, Action.ctrl_writeAll]
    simp only [serverStep, pc, Option.some.injEq] at hs
    subst hs
    exact .serving counts todo loaded (by rw [← hctrl]; rfl) (hctrl ▸ hdel pc) available
      (congrArg₂ (fun l x => l ++ [x]) handled hctrl) (book.frame rfl rfl rfl)
  | serving counts todo loaded pc noDel available handled book =>
    refine serverStep_serving counts todo loaded pc noDel available handled ?_ book hs
    rintro rfl
    exact rest_eq_nil hl
  | stored counts todo pc available handled book =>
    simp only [serverStep, pc, execStmt, Option.some.injEq] at hs
    subst hs
    refine .free (t := []) (u := []) ⟨counts.1, congrArg (· + 1) counts.2.1, counts.2.2⟩
      todo ⟨available, .inr (.inr rfl), ?_⟩ (.inl ⟨rfl, rfl⟩)
      (book.frame rfl (List.append_nil _) rfl)
    simp [serverAt, handled]
  | found counts todo pc available handled book =>
    simp only [serverStep, pc, execStmt, Option.some.injEq] at hs
    subst hs
    refine .replied ⟨counts.1, counts.2.1, congrArg (· + 1) counts.2.2⟩ todo
      ⟨available, .inr (.inr rfl), ?_⟩ (book.frame rfl (List.append_nil _) rfl)
    simp [serverAt, handled]
  | replied counts todo quiet book =>
    obtain ⟨pc, rfl, hq⟩ := serverStep_quiet counts.1 quiet hs
    exact .replied counts todo hq (book.frame rfl rfl rfl)
  | reading counts todo quiet reading book =>
    obtain ⟨pc, rfl, hq⟩ := serverStep_quiet counts.1 quiet hs
    exact .reading counts todo hq reading (book.frame rfl rfl rfl)
  | closed counts todo pc handled book =>
    obtain pc | ⟨available, pc | pc⟩ := pc
    · simp only [serverStep, pc, execStmt, Option.some.injEq] at hs
      subst hs
      exact .closed counts todo (.inr ⟨rfl, .inl rfl⟩) handled
        (book.frame rfl (List.append_nil _) rfl)
    · simp only [serverStep, pc, available, Option.some.injEq] at hs
      subst hs
      exact .closed counts todo (.inr ⟨available, .inr rfl⟩) handled (book.frame rfl rfl rfl)
    · simp [serverStep, pc] at hs

end Session

end CachelibArchive.ClientServer
