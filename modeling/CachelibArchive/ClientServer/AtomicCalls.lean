import CachelibArchive.ClientServer.Linearization
import CachelibArchive.ClientServer.Pools

/-!
# Sessions and atomic calls

A run of the sessions without evictions is, in the order of its log, a sequence of atomic calls
on the store: one call for each request a server executes, taken from the programs in their
order, with the same cache and the same replies. A server that has executed a deletion executes
nothing after it, and its client, which may go on for a while, returns no further string.
-/

namespace CachelibArchive.ClientServer

/-! ## One execution as a call -/

/-- What CacheLib answered to an allocation; a get and a deletion make none. -/
def Executed.allocated : Executed → Bool
  | .set _ _ _ stored => stored
  | .get .. | .del .. => false

/-- The server goes on serving behind the execution. -/
def Executed.serves : Executed → Bool
  | .set .. | .get .. => true
  | .del .. => false

theorem Executed.serves_eq_true {e : Executed} (h : e.request.ctrl ≠ sigDel) : e.serves = true := by
  cases e with
  | set | get => rfl
  | del => exact absurd rfl h

theorem answers_append (es es' : List Executed) : answers (es ++ es') = answers es ++ answers es' :=
  List.filterMap_append

namespace Store

variable {ι : Type*} [DecidableEq ι] {client : ι → CachelibClient}

/-- The store behind a sequence of calls. -/
def after (client : ι → CachelibClient) (st : Store ι) (ops : List (Operation ι)) : Store ι :=
  ops.foldl (fun st op => (st.perform client op).1) st

theorem after_concat (st : Store ι) (ops : List (Operation ι)) (op : Operation ι) :
    st.after client (ops ++ [op]) = ((st.after client ops).perform client op).1 :=
  List.foldl_concat ..

theorem returned_concat (pool : CString) (st : Store ι) (ops : List (Operation ι))
    (op : Operation ι) : st.returned client pool (ops ++ [op]) =
      st.returned client pool ops ++ if (client op.client).poolName = pool.bytes then
        ((st.after client ops).perform client op).2.toList else [] := by
  induction ops generalizing st with
  | nil => simp [returned, after]
  | cons o ops ih => simp [returned, ih, after]

/-- An execution has the effect and the reply of the call it was requested by. -/
theorem perform_of_effect {st : Store ι} {i : ι} {call : Call} {e : Executed} {cache' : Cache}
    (hserving : st.serving i = true) (he : e.Effect st.cache cache')
    (hrequest : e.request = (Action.call call).request (client i)) :
    (st.perform client ⟨i, call, e.allocated⟩).1 = ⟨cache', Function.update st.serving i e.serves⟩ ∧
      (st.perform client ⟨i, call, e.allocated⟩).2.toList = answers [e] := by
  have hkeep : Function.update st.serving i true = st.serving := by
    rw [← hserving, Function.update_eq_self]
  cases e with
  | set pid key value stored =>
    cases call with
    | setKV key' value' =>
      obtain ⟨rfl, rfl, rfl⟩ := Request.set.inj hrequest
      obtain ⟨-, rfl⟩ := he
      rw [Executed.serves, hkeep]
      cases stored <;> simp [perform, hserving, set_, Executed.allocated, answers]
    | getKV key' => cases hrequest
    | delKV key' => cases hrequest
  | get key found =>
    cases call with
    | setKV key' value' => cases hrequest
    | getKV key' =>
      obtain rfl := Request.get.inj hrequest
      obtain ⟨rfl, rfl⟩ := he
      rw [Executed.serves, hkeep]
      simp [perform, hserving, answers]
    | delKV key' => cases hrequest
  | del key removed =>
    cases call with
    | setKV key' value' => cases hrequest
    | getKV key' => cases hrequest
    | delKV key' =>
      obtain rfl := Request.del.inj hrequest
      obtain rfl := he
      simp [perform, hserving, answers, del_, Executed.serves]

end Store

/-! ## The stages of a session -/

/-- The client waits for a reply before it returns from a get. -/
def WaitsFirst : List Stmt → Prop
  | [] => True
  | .tryGetBack :: _ => True
  | .draw :: _ | .ret :: _ => False
  | _ :: rest => WaitsFirst rest

theorem waitsFirst_writes (ws : List Write) {todo : List Stmt} (h : WaitsFirst todo) :
    WaitsFirst (ws.map .write ++ todo) := by
  induction ws with
  | nil => exact h
  | cons w ws ih => exact ih

theorem waitsFirst_program (c : CachelibClient) (rest : List Action) :
    WaitsFirst (program c rest) := by
  induction rest with
  | nil => trivial
  | cons a rest ih =>
    have hafter : WaitsFirst (a.after ++ program c rest) := by
      cases a with
      | destroy => exact ih
      | call k => cases k <;> first | exact ih | trivial
    have hwrites : WaitsFirst ((a.writes c).map .write ++ .post :: (a.after ++ program c rest)) :=
      waitsFirst_writes _ hafter
    rw [program_cons]
    cases a with
    | destroy => exact hwrites
    | call k => cases k <;> exact hwrites

namespace Session

/-- A client that is sent no more replies returns no more strings. -/
theorem clientStep_waitsFirst {s s' : Session} {r : Draw} (hB : s.semaphoreGetBack = 0)
    (hwaits : WaitsFirst s.client.todo) (h : s.clientStep r = some s') :
    s'.semaphoreGetBack = 0 ∧ WaitsFirst s'.client.todo ∧ s'.client.replies = s.client.replies ∧
      s'.server = s.server := by
  unfold clientStep at h
  split at h
  · cases h
  all_goals
    rename_i htodo
    rw [htodo] at hwaits
    try split_ifs at h
    all_goals first
      | exact hwaits.elim
      | (cases h
         first
           | exact ⟨hB, hwaits, rfl, rfl⟩
           | exact ⟨hB, htodo ▸ hwaits, rfl, rfl⟩
           | omega)

/-- The server is in the arms behind an executed deletion, or has left its loop by them. -/
def Ending (s : Session) : Prop :=
  s.server.pc = .run (.postServer :: closeArm) ∨ s.server.pc = .run closeArm ∨
    s.server.pc = .run [.stop] ∨
    s.server.available = false ∧ (s.server.pc = .run [] ∨ s.server.pc = .left)

/-- Where a session is, and whether its server still executes requests. -/
inductive Stage (c : CachelibClient) (calls : List Call) (s : Session) : Bool → Prop where
  /-- In one of its phases. -/
  | phase {done rest : List Action} (split : done ++ rest = lifetime calls)
      (phase : s.Phase c done rest) : Stage c calls s true
  /-- In the arm of a deletion, in front of it. -/
  | deleting {done rest : List Action} {key : List UInt8}
      (split : done ++ [.call (.delKV key)] ++ rest = lifetime calls) (counts : s.Counts 0 0 0)
      (todo : s.client.todo = program c rest) (loaded : s.Loaded c (.call (.delKV key)))
      (pc : s.server.pc = .run (.del :: .postServer :: closeArm))
      (book : s.Book c (done ++ [.call (.delKV key)]) [s.message.request] []) :
      Stage c calls s true
  /-- Behind it. -/
  | ended (getBack : s.semaphoreGetBack = 0) (waits : WaitsFirst s.client.todo)
      (ending : s.Ending) (answered : answers s.server.executed = s.client.replies) :
      Stage c calls s false

variable {c : CachelibClient} {calls : List Call} {s s' : Session} {serving : Bool}

/-- The client has returned the replies of the executed gets, in order. -/
theorem Stage.replies (h : s.Stage c calls serving)
    (hfits : ∀ a ∈ lifetime calls, a.Fits c) : s.client.replies <+: answers s.server.executed := by
  cases h with
  | phase split phase =>
    obtain ⟨open', unread, book, -⟩ := phase.exists_book
    rw [book.answered fun a ha => hfits a (split ▸ List.mem_append_left _ ha)]
    exact List.prefix_append _ _
  | deleting split counts todo loaded pc book =>
    rw [book.answered fun a ha => hfits a (split ▸ List.mem_append_left _ ha)]
    exact List.prefix_append _ _
  | ended getBack waits ending answered => exact answered ▸ List.prefix_rfl

/-- A statement of the client keeps the stage. -/
theorem Stage.client {r : Draw} (h : s.Stage c calls serving) (hs : s.clientStep r = some s') :
    s'.Stage c calls serving := by
  cases h with
  | phase split phase =>
    obtain ⟨done', rest', hsplit, hphase⟩ := phase.client hs
    exact .phase (hsplit.trans split) hphase
  | deleting split counts todo loaded pc book =>
    obtain rfl := clientStep_blocked (a := .destroy) counts.2.1 counts.2.2 todo hs
    exact .deleting split counts todo loaded pc book
  | ended getBack waits ending answered =>
    obtain ⟨hgetBack, hwaits, hreplies, hserver⟩ := clientStep_waitsFirst getBack waits hs
    refine .ended hgetBack hwaits ?_ ?_
    · rwa [Ending, hserver]
    · rw [hserver, hreplies, answered]

/-- At the switch, with the request of a deletion, the session is in front of it. -/
theorem Phase.deleting {done rest : List Action} {b : Bool} {cache : Cache}
    {out : Cache × Session × Option Executed} (h : s.Phase c done rest)
    (split : done ++ rest = lifetime calls) (hpc : s.server.pc = .dispatch)
    (hctrl : s.message.ctrl = sigDel) (hs : s.serverStep b cache = some out) :
    out.2.2 = none ∧ out.2.1.Stage c calls true := by
  have hquiet : ¬ s.Quiet := by
    rintro ⟨-, ⟨n, hp⟩ | hp | hp, -⟩ <;> simp [hp] at hpc
  cases h with
  | free _ _ quiet _ _ => exact absurd quiet hquiet
  | writing _ _ _ _ quiet _ => exact absurd quiet hquiet
  | pending _ _ _ quiet _ => exact absurd quiet hquiet
  | @dispatched _ _ a counts todo loaded _ _ _ book =>
    have ha : a.ctrl = sigDel := by
      obtain ⟨m, hm⟩ := loaded
      rw [← hctrl, hm, Action.ctrl_writeAll]
    obtain ⟨key, rfl⟩ := Action.eq_delKV ha
    simp only [serverStep, hpc, hctrl, Option.some.injEq] at hs
    subst hs
    exact ⟨rfl, .deleting split counts todo loaded rfl (book.frame rfl rfl rfl)⟩
  | serving _ _ _ pc _ _ _ _ => simp [pc] at hpc
  | stored _ _ pc _ _ _ => simp [pc] at hpc
  | found _ _ pc _ _ _ => simp [pc] at hpc
  | replied _ _ quiet _ => exact absurd quiet hquiet
  | reading _ _ quiet _ _ => exact absurd quiet hquiet
  | closed _ _ pc _ _ => obtain hp | ⟨-, hp | hp⟩ := pc <;> simp [hp] at hpc

/-- The action whose request is executed, where it is not the destructor, is a call of the
program. -/
theorem exists_call {done rest : List Action} (split : done ++ rest = lifetime calls) {n : Nat}
    {r : Request} (hn : (done.map (Action.request c))[n]? = some r) (hr : r ≠ .close) :
    ∃ call, calls[n]? = some call ∧ r = (Action.call call).request c := by
  rw [List.getElem?_map, Option.map_eq_some_iff] at hn
  obtain ⟨a, ha, rfl⟩ := hn
  have hlife : (calls.map Action.call ++ [.destroy])[n]? = some a := by
    have hlt := (List.getElem?_eq_some_iff.mp ha).1
    rw [← ha, ← List.getElem?_append_left hlt, split]
    rfl
  obtain hlt | hge := Nat.lt_or_ge n calls.length
  · rw [List.getElem?_append_left (by simpa using hlt), List.getElem?_map,
      Option.map_eq_some_iff] at hlife
    obtain ⟨call, hcall, rfl⟩ := hlife
    exact ⟨call, hcall, rfl⟩
  · rw [List.getElem?_append_right (by simpa using hge)] at hlife
    obtain rfl := List.mem_singleton.mp (List.mem_of_getElem? hlife)
    exact absurd rfl hr

/-- Behind a deletion the server executes nothing, and replies no more. -/
theorem Ending.server {b : Bool} {cache : Cache} {out : Cache × Session × Option Executed}
    (h : s.Ending) (hs : s.serverStep b cache = some out) :
    out.2.2 = none ∧ out.2.1.Ending ∧ out.2.1.semaphoreGetBack = s.semaphoreGetBack ∧
      out.2.1.client = s.client := by
  obtain pc | pc | pc | ⟨available, pc | pc⟩ := h
  · simp only [serverStep, pc, execStmt, Option.some.injEq] at hs
    subst hs
    exact ⟨rfl, .inr (.inl rfl), rfl, rfl⟩
  · simp only [serverStep, pc, closeArm, execStmt, Option.some.injEq] at hs
    subst hs
    exact ⟨rfl, .inr (.inr (.inl rfl)), rfl, rfl⟩
  · simp only [serverStep, pc, execStmt, Option.some.injEq] at hs
    subst hs
    exact ⟨rfl, .inr (.inr (.inr ⟨rfl, .inl rfl⟩)), rfl, rfl⟩
  · simp only [serverStep, pc, available, Option.some.injEq] at hs
    subst hs
    exact ⟨rfl, .inr (.inr (.inr ⟨available, .inr rfl⟩)), rfl, rfl⟩
  · simp [serverStep, pc] at hs

/-- A statement of the server keeps the stage, or executes the next call of the program; behind a
deletion it executes none. -/
theorem Stage.server {b : Bool} {cache : Cache} {out : Cache × Session × Option Executed}
    (h : s.Stage c calls serving) (hfits : ∀ a ∈ lifetime calls, a.Fits c)
    (hs : s.serverStep b cache = some out) :
    out.2.1.Stage c calls (serving && out.2.2.all Executed.serves) ∧
      ∀ e ∈ out.2.2, serving = true ∧ ∃ call, calls[s.server.executed.length]? = some call ∧
        e.request = (Action.call call).request c := by
  obtain ⟨hexec, -⟩ := serverStep_effect hs
  cases h with
  | @phase done rest split phase =>
    by_cases hdel : s.server.pc = .dispatch ∧ s.message.ctrl = sigDel
    · obtain ⟨hnone, hstage⟩ := phase.deleting split hdel.1 hdel.2 hs
      rw [hnone]
      exact ⟨hstage, fun e he => (Option.not_mem_none e he).elim⟩
    · have hphase := phase.server split (fun hpc hctrl => hdel ⟨hpc, hctrl⟩) hs
      obtain ⟨open', unread, book, -⟩ := hphase.exists_book
      have hdone : ∀ a ∈ done, a.Fits c := fun a ha => hfits a (split ▸ List.mem_append_left _ ha)
      have hrequests := book.executed.trans (book.posted_eq hdone)
      have hserves : ∀ e ∈ out.2.2, e.serves = true := fun e he =>
        Executed.serves_eq_true (book.noDel e (by simp [hexec, Option.mem_def.mp he]))
      rw [hexec] at hrequests
      refine ⟨?_, fun e he => ⟨rfl, exists_call split ?_ ?_⟩⟩
      · rw [Bool.true_and, (Option.all_eq_true ..).mpr hserves]
        exact .phase split hphase
      · rw [← hrequests, Option.mem_def.mp he]
        simp
      · cases e <;> exact Request.noConfusion
  | @deleting done rest key split counts todo loaded pc book =>
    have hdone : ∀ a ∈ done ++ [.call (.delKV key)], a.Fits c := fun a ha =>
      hfits a (split ▸ List.mem_append_left _ ha)
    have hrequests := book.executed.trans (book.posted_eq hdone)
    have hanswered := book.answered hdone
    have hdel : s.message.request = .del s.message.key := by
      obtain ⟨m, hm⟩ := loaded
      rw [hm]
      rfl
    simp only [serverStep, pc, execStmt, Option.some.injEq] at hs
    subst hs
    refine ⟨.ended counts.2.2 (todo ▸ waitsFirst_program c rest) (.inl rfl) ?_, ?_⟩
    · exact (answers_append _ _).trans ((List.append_nil _).trans
        (hanswered.trans (List.append_nil _)))
    · intro e he
      obtain rfl := Option.some.inj he
      refine ⟨rfl, exists_call split ?_ Request.noConfusion⟩
      rw [← hrequests, hdel]
      simp [Executed.request]
  | ended getBack waits ending answered =>
    obtain ⟨hnone, hending, hgetBack, hclient⟩ := ending.server hs
    rw [hnone, Option.toList_none, List.append_nil] at hexec
    rw [hnone]
    refine ⟨.ended (hgetBack.trans getBack) ?_ hending ?_, fun e he => ?_⟩
    · rwa [hclient]
    · rw [hexec, hclient, answered]
    · exact (Option.not_mem_none e he).elim

end Session

/-! ## The world -/

namespace World

variable {ι : Type*} [DecidableEq ι]

/-- What the sessions of a pool have executed, in the order of the log. -/
def poolLog (client : ι → CachelibClient) (pool : CString) (log : List (ι × Executed)) :
    List Executed :=
  (log.filter fun p => (client p.1).poolName = pool.bytes).map Prod.snd

/-- The calls of one client. -/
def callsOf (ops : List (Operation ι)) (i : ι) : List Call :=
  (ops.filter fun op => op.client = i).map Operation.call

theorem callsOf_concat (ops : List (Operation ι)) (op : Operation ι) (i : ι) :
    callsOf (ops ++ [op]) i = callsOf ops i ++ if op.client = i then [op.call] else [] := by
  by_cases h : op.client = i <;> simp [callsOf, h]

theorem mem_callsOf {op : Operation ι} {ops : List (Operation ι)} (h : op ∈ ops) :
    op.call ∈ callsOf ops op.client :=
  List.mem_map_of_mem (List.mem_filter.mpr ⟨h, by simp⟩)

/-- The log is the sequence of calls `ops`. -/
structure Atomic (client : ι → CachelibClient) (calls : ι → List Call) (ops : List (Operation ι))
    (w : World ι) : Prop where
  /-- Each execution was requested by the call at its place. -/
  requests : w.log.map (fun p => (p.1, p.2.request)) =
    ops.map fun op => (op.client, (Action.call op.call).request (client op.client))
  /-- The calls of a client are the first ones of its program. -/
  program : ∀ i, callsOf ops i = (calls i).take (w.session i).server.executed.length
  /-- The calls leave the cache behind. -/
  cache : (Store.initial.after client ops).cache = w.cache
  /-- They return what the gets of the log were answered. -/
  returned : ∀ pool, Store.initial.returned client pool ops = answers (poolLog client pool w.log)
  /-- The sessions stand as their service says. -/
  stage : ∀ i, (w.session i).Stage (client i) (calls i)
    ((Store.initial.after client ops).serving i)

variable {client : ι → CachelibClient} {calls : ι → List Call} {ops : List (Operation ι)}
  {w w' : World ι}

omit [DecidableEq ι] in
theorem stage_start (i : ι) :
    ((start client calls).session i).Stage (client i) (calls i) true :=
  .phase (List.nil_append _) (Session.phase_start _ _)

theorem atomic_start (client : ι → CachelibClient) (calls : ι → List Call) :
    (start client calls).Atomic client calls [] :=
  ⟨rfl, fun _ => rfl, rfl, fun _ => rfl, stage_start⟩

/-- A statement that executes nothing. -/
theorem Atomic.quiet (h : w.Atomic client calls ops) {i : ι} {s : Session}
    (hexec : s.server.executed = (w.session i).server.executed)
    (hstage : s.Stage (client i) (calls i) ((Store.initial.after client ops).serving i)) :
    Atomic client calls ops { w with session := Function.update w.session i s } where
  requests := h.requests
  program := by
    refine (Function.forall_update_iff w.session fun j s => callsOf ops j =
      (calls j).take s.server.executed.length).mpr ⟨?_, fun j _ => h.program j⟩
    rw [hexec, h.program i]
  cache := h.cache
  returned := h.returned
  stage := (Function.forall_update_iff w.session fun j s => s.Stage (client j) (calls j)
    ((Store.initial.after client ops).serving j)).mpr ⟨hstage, fun j _ => h.stage j⟩

/-- A statement that executes the next call of a client. -/
theorem Atomic.execute (h : w.Atomic client calls ops) {i : ι} {s : Session} {e : Executed}
    {call : Call} {cache' : Cache} (hexec : s.server.executed = (w.session i).server.executed ++ [e])
    (hserving : (Store.initial.after client ops).serving i = true)
    (hstage : s.Stage (client i) (calls i) e.serves)
    (hcall : (calls i)[(w.session i).server.executed.length]? = some call)
    (hrequest : e.request = (Action.call call).request (client i))
    (heffect : e.Effect w.cache cache') :
    Atomic client calls (ops ++ [⟨i, call, e.allocated⟩])
      ⟨cache', Function.update w.session i s, w.log ++ [(i, e)]⟩ := by
  obtain ⟨hafter, hreply⟩ :=
    Store.perform_of_effect hserving (h.cache.symm ▸ heffect) hrequest
  constructor
  case requests => simp [h.requests, hrequest]
  case program =>
    intro j
    rw [callsOf_concat, h.program]
    by_cases hj : j = i
    · subst hj
      simp [hexec, List.take_add_one, hcall]
    · simp [hj, Ne.symm hj]
  case cache => rw [Store.after_concat, hafter]
  case returned =>
    intro pool
    rw [Store.returned_concat, hreply, h.returned pool, poolLog, poolLog]
    by_cases hpool : (client i).poolName = pool.bytes
    · simp [hpool, answers_append]
    · simp [hpool]
  case stage =>
    rw [Store.after_concat, hafter]
    intro j
    by_cases hj : j = i
    · subst hj
      simpa using hstage
    · simpa [hj] using h.stage j

/-- A step other than an eviction executes nothing or the next call of a client. -/
theorem Atomic.step (h : w.Atomic client calls ops)
    (hfits : ∀ i, ∀ a ∈ lifetime (calls i), a.Fits (client i)) {l : Label ι}
    (hl : ∀ key, l ≠ .evict key) (hw : World.step w l = some w') :
    ∃ ops', w'.Atomic client calls ops' := by
  cases l with
  | evict key => exact absurd rfl (hl key)
  | client j r =>
    obtain ⟨s, hs, rfl⟩ := Option.map_eq_some_iff.mp hw
    have hserver : s.server.executed = (w.session j).server.executed := by
      rw [Session.clientStep_server hs]
    exact ⟨ops, h.quiet hserver ((h.stage j).client hs)⟩
  | server j b =>
    obtain ⟨⟨cache', s, e⟩, hs, rfl⟩ := Option.map_eq_some_iff.mp hw
    obtain ⟨hexec, heffect⟩ := Session.serverStep_effect hs
    obtain ⟨hstage, hcall⟩ := (h.stage j).server (hfits j) hs
    cases e with
    | none =>
      obtain rfl := heffect
      have hquiet := h.quiet (hexec.trans (List.append_nil _)) (by simpa using hstage)
      exact ⟨ops, by simpa using hquiet⟩
    | some e =>
      obtain ⟨hserving, call, hnext, hrequest⟩ := hcall e rfl
      rw [hserving] at hstage
      exact ⟨_, h.execute hexec hserving hstage hnext hrequest heffect⟩

/-- Without evictions the log of every reachable state is a sequence of atomic calls, and every
client has returned the first replies its gets have in it. -/
theorem atomic_of_run (hfits : ∀ i, ∀ call ∈ calls i, (Action.call call).Fits (client i))
    {ls : List (Label ι)} (hls : ∀ l ∈ ls, ∀ key, l ≠ .evict key)
    (hw : Run.exec World.step (start client calls) ls = some w) :
    ∃ ops, w.Atomic client calls ops ∧
      ∀ i, (w.session i).client.replies <+: answers (history w.log i) := by
  have hactions : ∀ i, ∀ a ∈ lifetime (calls i), a.Fits (client i) := by
    intro i a ha
    simp only [lifetime, List.mem_append, List.mem_map, List.mem_singleton] at ha
    obtain ⟨call, hmem, rfl⟩ | rfl := ha
    · exact hfits i call hmem
    · trivial
  have hcon : w.Consistent := Run.exec_invariant (fun _ _ _ h hs => h.step hs)
    (consistent_start _ _) hw
  obtain ⟨ops, hatomic⟩ := Run.exec_invariant_of
    (P := fun w : World ι => ∃ ops, w.Atomic client calls ops)
    (by
      rintro _ _ _ hl ⟨_, h⟩ hs
      exact h.step hactions hl hs) hls ⟨[], atomic_start _ _⟩ hw
  refine ⟨ops, hatomic, fun i => ?_⟩
  rw [hcon.history_eq]
  exact (hatomic.stage i).replies (hactions i)

/-- A call of the log is one of its client's program. -/
theorem Atomic.mem_calls (h : w.Atomic client calls ops) {op : Operation ι} (hop : op ∈ ops) :
    op.call ∈ calls op.client := by
  have hmem := mem_callsOf hop
  rw [h.program] at hmem
  exact List.mem_of_mem_take hmem

/-- Of two separable pools, the gets of the second are answered as by its own calls alone. -/
theorem Atomic.isolated (h : w.Atomic client calls ops)
    (hfits : ∀ i, ∀ call ∈ calls i, (Action.call call).Fits (client i)) {pool pool' : CString}
    (hpools : ∀ i, (client i).poolName = pool.bytes ∨ (client i).poolName = pool'.bytes)
    (hseparable : Separable pool pool') :
    answers (poolLog client pool' w.log) = Store.initial.returned client pool'
      (ops.filter fun op => (client op.client).poolName ≠ pool.bytes) := by
  have hdistinct := (keysDistinct_iff_separable pool pool').mpr hseparable
  rw [← h.returned]
  exact (Store.Agree.returned hdistinct (fun op _ => hpools op.client)
    (fun op hop => hfits _ _ (h.mem_calls hop)) ⟨fun _ _ => rfl, fun _ _ => rfl⟩).symm

end World

end CachelibArchive.ClientServer
