import CachelibArchive.ClientServer.Phase

/-!
# Token conservation

Without deletions the three semaphores and the parties inside the message always add
up to one, every request posted is executed once and in order, and the server leaves
its loop only on `SIG_CLOSE`. A deletion runs on into the arm of `SIG_CLOSE`, so it
posts twice and ends the server: the law holds of exactly the call sequences without one.
-/

namespace CachelibArchive.ClientServer

namespace Session

/-! ## The law of one session -/

/-- What a session keeps to in every state. -/
structure Law (s : Session) : Prop where
  /-- The parties are not both inside the message. -/
  exclusive : ¬ (s.clientInside = true ∧ s.serverInside = true)
  /-- There is one right to the message until `SIG_CLOSE` is handled. -/
  conserved : sigClose ∉ s.server.handled → s.tokens + s.inside = 1
  /-- The requests posted are executed once and in order; at most one is still open. -/
  once : ∃ open' : List Request,
    s.client.posted = s.server.executed.map Executed.request ++ open' ∧ open'.length ≤ 1
  /-- The server leaves its loop on `SIG_CLOSE` only. -/
  closes : s.server.pc = .left → s.server.handled.getLast? = some sigClose

/-- The session has run its course: one request for each action was posted, the server has
executed all but the last, which is `SIG_CLOSE`, and has left its loop. -/
structure Finished (calls : List Call) (s : Session) : Prop where
  /-- The client is done. -/
  todo : s.client.todo = []
  /-- The server is done. -/
  pc : s.server.pc = .left
  /-- One request for each action. -/
  posted : s.client.posted.map Request.ctrl = (lifetime calls).map Action.ctrl
  /-- All of them executed. -/
  executed : s.client.posted = s.server.executed.map Executed.request ++ [.close]

theorem Quiet.serverInside {s : Session} (h : s.Quiet) : s.serverInside = false := by
  obtain ⟨-, ⟨n, hp⟩ | hp | hp, -⟩ := h <;> simp [Session.serverInside, hp]

theorem Counts.tokens {s : Session} {a b c : Nat} (h : s.Counts a b c) : s.tokens = a + b + c := by
  obtain ⟨rfl, rfl, rfl⟩ := h
  rfl

/-- In every phase there is one right to the message. -/
theorem Phase.conserved {c : CachelibClient} {s : Session} {done rest : List Action}
    (h : s.Phase c done rest) : s.tokens + s.inside = 1 := by
  cases h with
  | free counts todo quiet returning book =>
    have hc : s.clientInside = false := by
      obtain ⟨rfl, -⟩ | ⟨rfl | rfl, -⟩ := returning <;>
        exact (congrArg holdsMessage todo).trans (holdsMessage_program c rest)
    rw [counts.tokens, inside, hc, quiet.serverInside]
    rfl
  | writing counts todo writes message quiet book =>
    have hc : s.clientInside = true := (congrArg holdsMessage todo).trans (holdsMessage_writes _ _)
    rw [counts.tokens, inside, hc, quiet.serverInside]
    rfl
  | pending counts todo loaded quiet book =>
    have hc : s.clientInside = false :=
      (congrArg holdsMessage todo).trans (holdsMessage_after c _ rest)
    rw [counts.tokens, inside, hc, quiet.serverInside]
    rfl
  | dispatched counts todo loaded pc available handled book =>
    have hc : s.clientInside = false :=
      (congrArg holdsMessage todo).trans (holdsMessage_after c _ rest)
    rw [counts.tokens, inside, hc, serverInside, pc]
    rfl
  | @serving _ _ a counts todo loaded pc noDel available handled book =>
    have hc : s.clientInside = false :=
      (congrArg holdsMessage todo).trans (holdsMessage_after c _ rest)
    have hs : s.serverInside = true := by
      rw [serverInside, pc]
      cases a with
      | destroy => rfl
      | call k => cases k <;> rfl
    rw [counts.tokens, inside, hc, hs]
    rfl
  | stored counts todo pc available handled book =>
    have hc : s.clientInside = false :=
      (congrArg holdsMessage todo).trans (holdsMessage_program c rest)
    rw [counts.tokens, inside, hc, serverInside, pc]
    rfl
  | found counts todo pc available handled book =>
    have hc : s.clientInside = false := congrArg holdsMessage todo
    rw [counts.tokens, inside, hc, serverInside, pc]
    rfl
  | replied counts todo quiet book =>
    have hc : s.clientInside = false := congrArg holdsMessage todo
    rw [counts.tokens, inside, hc, quiet.serverInside]
    rfl
  | reading counts todo quiet reading book =>
    have hc : s.clientInside = true := by
      obtain ⟨rfl | rfl | rfl, -⟩ | ⟨rfl, -⟩ := reading <;> exact congrArg holdsMessage todo
    rw [counts.tokens, inside, hc, quiet.serverInside]
    rfl
  | closed counts todo pc handled book =>
    have hc : s.clientInside = false := congrArg holdsMessage todo
    have hs : s.serverInside = false := by
      obtain hp | ⟨-, hp | hp⟩ := pc <;> rw [serverInside, hp] <;> rfl
    rw [counts.tokens, inside, hc, hs]
    rfl

/-- In every phase the books are kept, with at most one request open. -/
theorem Phase.exists_book {c : CachelibClient} {s : Session} {done rest : List Action}
    (h : s.Phase c done rest) :
    ∃ open' unread, s.Book c done open' unread ∧ open'.length ≤ 1 := by
  cases h with
  | free _ _ _ _ book => exact ⟨_, _, book, by simp⟩
  | writing _ _ _ _ _ book => exact ⟨_, _, book, by simp⟩
  | pending _ _ _ _ book => exact ⟨_, _, book, by simp⟩
  | dispatched _ _ _ _ _ _ book => exact ⟨_, _, book, by simp⟩
  | serving _ _ _ _ _ _ _ book => exact ⟨_, _, book, by simp⟩
  | stored _ _ _ _ _ book => exact ⟨_, _, book, by simp⟩
  | found _ _ _ _ _ book => exact ⟨_, _, book, by simp⟩
  | replied _ _ _ book => exact ⟨_, _, book, by simp⟩
  | reading _ _ _ _ book => exact ⟨_, _, book, by simp⟩
  | closed _ _ _ _ book => exact ⟨_, _, book, by simp⟩

theorem Quiet.pc_ne_left {s : Session} (h : s.Quiet) : s.server.pc ≠ .left := by
  obtain ⟨-, ⟨n, hp⟩ | hp | hp, -⟩ := h <;> simp [hp]

/-- A server that has left its loop is in the last phase. -/
theorem Phase.of_left {c : CachelibClient} {s : Session} {done rest : List Action}
    (h : s.Phase c done rest) (hpc : s.server.pc = .left) :
    s.client.todo = [] ∧ s.server.handled.getLast? = some sigClose ∧
      rest = [] ∧ s.Book c done [.close] [] := by
  cases h with
  | free _ _ quiet _ _ => exact absurd hpc quiet.pc_ne_left
  | writing _ _ _ _ quiet _ => exact absurd hpc quiet.pc_ne_left
  | pending _ _ _ quiet _ => exact absurd hpc quiet.pc_ne_left
  | dispatched _ _ _ pc _ _ _ => simp [pc] at hpc
  | serving _ _ _ pc _ _ _ _ => simp [pc] at hpc
  | stored _ _ pc _ _ _ => simp [pc] at hpc
  | found _ _ pc _ _ _ => simp [pc] at hpc
  | replied _ _ quiet _ => exact absurd hpc quiet.pc_ne_left
  | reading _ _ quiet _ _ => exact absurd hpc quiet.pc_ne_left
  | closed _ todo _ handled book => exact ⟨todo, handled, rfl, book⟩

/-- Every phase keeps to the law. -/
theorem Phase.law {c : CachelibClient} {s : Session} {done rest : List Action}
    (h : s.Phase c done rest) : s.Law where
  exclusive := by
    rintro ⟨hc, hs⟩
    have hsum := h.conserved
    simp [inside, hc, hs] at hsum
  conserved _ := h.conserved
  once := by
    obtain ⟨open', unread, book, hlen⟩ := h.exists_book
    exact ⟨open', book.executed.symm, hlen⟩
  closes hpc := (h.of_left hpc).2.1

/-- The codes posted are those of the actions done. -/
theorem Book.ctrl_posted {c : CachelibClient} {s : Session} {done : List Action}
    {open' : List Request} {unread : List CString} (h : s.Book c done open' unread) :
    s.client.posted.map Request.ctrl = done.map Action.ctrl := by
  have hall : ∀ {as : List Action} {rs : List Request}, List.Forall₂ (Posted c) as rs →
      rs.map Request.ctrl = as.map Action.ctrl := by
    intro as rs hrs
    induction hrs with
    | nil => rfl
    | cons hr _ ih => rw [List.map_cons, List.map_cons, hr.ctrl_eq, ih]
  exact hall h.posted

/-- Actions that fit have posted the requests they mean. -/
theorem Book.posted_eq {c : CachelibClient} {s : Session} {done : List Action}
    {open' : List Request} {unread : List CString} (h : s.Book c done open' unread)
    (hf : ∀ a ∈ done, a.Fits c) : s.client.posted = done.map (Action.request c) := by
  have hall : ∀ {as : List Action} {rs : List Request}, List.Forall₂ (Posted c) as rs →
      (∀ a ∈ as, a.Fits c) → rs = as.map (Action.request c) := by
    intro as rs hrs
    induction hrs with
    | nil => exact fun _ => rfl
    | cons hr _ ih =>
      intro hf
      rw [List.map_cons, hr.eq_request (hf _ List.mem_cons_self),
        ih fun a ha => hf a (List.mem_cons_of_mem _ ha)]
  exact hall h.posted hf

/-- In the last phase the session has run its course. -/
theorem Phase.finished {c : CachelibClient} {s : Session} {calls : List Call}
    {done rest : List Action} (h : s.Phase c done rest) (hl : done ++ rest = lifetime calls)
    (hpc : s.server.pc = .left) : s.Finished calls := by
  obtain ⟨todo, -, rfl, book⟩ := h.of_left hpc
  rw [List.append_nil] at hl
  exact ⟨todo, hpc, hl ▸ book.ctrl_posted, book.executed.symm⟩

/-- Where every request is executed, the destructor is not among the actions done. -/
theorem Book.destroy_not_mem {c : CachelibClient} {s : Session} {done : List Action}
    {unread : List CString} (h : s.Book c done [] unread) : Action.destroy ∉ done := by
  intro hmem
  have hclose : sigClose ∈ s.client.posted.map Request.ctrl := by
    rw [h.ctrl_posted]
    exact List.mem_map_of_mem hmem
  rw [← h.executed, List.append_nil, List.map_map, List.mem_map] at hclose
  obtain ⟨e, -, he⟩ := hclose
  cases e <;> cases he

/-! ## Progress -/

end Session

/-- Work ahead in a statement; a post leaves work to the server. -/
def Stmt.work : Stmt → Nat
  | .post => 8
  | .draw => 5
  | _ => 1

/-- A statement that waits for no semaphore. -/
def Stmt.Free : Stmt → Prop
  | .tryServer | .waitServer | .tryGetBack => False
  | _ => True

/-- Work ahead of the server in handling a request. -/
def ServerPc.work : ServerPc → Nat
  | .dispatch => 5
  | .run todo => todo.length + 1
  | _ => 0

namespace Session

/-- Work left in a session. -/
def work (s : Session) : Nat :=
  (s.client.todo.map Stmt.work).sum + 6 * s.semaphore + s.server.pc.work

/-- The draw 0. -/
def Draw.zero : Draw := ⟨0, le_refl 0, zero_lt_one⟩

theorem clientStep_acquire_work {s : Session} {a : Action} {todo : List Stmt} {r : Draw}
    (hS : s.semaphoreServer = 1) (ht : s.client.todo = a.acquire :: todo) :
    ∃ s', s.clientStep r = some s' ∧ s'.work < s.work := by
  refine ⟨_, clientStep_acquire hS ht, ?_⟩
  have ha : a.acquire.work = 1 := by
    cases a with
    | destroy => rfl
    | call k => cases k <;> rfl
  simp only [work, goto, ht, List.map_cons, List.sum_cons, ha]
  omega

/-- A client in front of such a statement has less to do behind it. -/
theorem clientStep_run_work {s : Session} {stmt : Stmt} {todo : List Stmt}
    (ht : s.client.todo = stmt :: todo) (hfree : stmt.Free) :
    ∃ s', s.clientStep .zero = some s' ∧ s'.work < s.work := by
  cases stmt with
  | tryServer | waitServer | tryGetBack => exact hfree.elim
  | draw =>
    refine ⟨_, by simp only [clientStep, ht]; rfl, ?_⟩
    simp [work, goto, ht, Stmt.work, hitBranch, Draw.zero]
    omega
  | post =>
    refine ⟨_, by simp only [clientStep, ht]; rfl, ?_⟩
    simp [work, goto, ht, Stmt.work]
    omega
  | write | clearGetValue | takeValue | postServer | countHit | ret =>
    exact ⟨_, by simp only [clientStep, ht]; rfl, by simp [work, goto, ht, Stmt.work]⟩

/-- With a request posted, the server gets closer to taking it. -/
theorem serverStep_pending_work {s : Session} (hA : s.semaphore = 1) (hq : s.Quiet)
    (cache : Cache) : ∃ out, s.serverStep true cache = some out ∧ out.2.1.work < s.work := by
  obtain ⟨ha, ⟨n, hp⟩ | hp | hp, -⟩ := hq
  · refine ⟨(cache, { s.serverAt .dispatch with semaphore := 0 }, none), ?_, ?_⟩
    · simp [serverStep, hp, hA]
    · simp [work, serverAt, hp, hA, ServerPc.work]
  · refine ⟨(cache, { s.serverAt .dispatch with semaphore := 0 }, none), ?_, ?_⟩
    · simp [serverStep, hp, hA]
    · simp [work, serverAt, hp, hA, ServerPc.work]
  · refine ⟨(cache, s.serverAt (.spin 0), none), ?_, ?_⟩
    · simp [serverStep, hp, ha]
    · simp [work, serverAt, hp, ServerPc.work]

/-- Inside an arm the server gets closer to its end. -/
theorem serverStep_run_work {s : Session} {stmt : ServerStmt} {todo : List ServerStmt}
    (hp : s.server.pc = .run (stmt :: todo)) (cache : Cache) :
    ∃ out, s.serverStep true cache = some out ∧ out.2.1.work < s.work := by
  refine ⟨_, by simp only [serverStep, hp]; rfl, ?_⟩
  cases stmt <;> simp [execStmt, work, serverAt, hp, ServerPc.work]

/-- Short of the end and of a deletion, some party has a statement that leaves less work. -/
theorem Phase.progress {c : CachelibClient} {s : Session} {calls : List Call}
    {done rest : List Action} (h : s.Phase c done rest) (hl : done ++ rest = lifetime calls)
    (hpc : s.server.pc ≠ .left) (hdel : s.server.pc = .dispatch → s.message.ctrl ≠ sigDel) :
    (∃ s', s.clientStep .zero = some s' ∧ s'.work < s.work) ∨
      ∀ cache, ∃ out, s.serverStep true cache = some out ∧ out.2.1.work < s.work := by
  cases h with
  | free counts todo quiet returning book =>
    left
    obtain ⟨rfl, rfl⟩ | ⟨rfl | rfl, rfl⟩ := returning
    · cases rest with
      | nil =>
        rw [List.append_nil] at hl
        exact absurd (hl ▸ List.mem_append_right _ List.mem_cons_self) book.destroy_not_mem
      | cons a rest =>
        rw [List.nil_append, program_cons] at todo
        exact clientStep_acquire_work counts.2.1 todo
    · exact clientStep_run_work todo trivial
    · exact clientStep_run_work todo trivial
  | @writing _ _ _ _ ws counts todo writes message quiet book =>
    left
    cases ws with
    | nil => exact clientStep_run_work todo trivial
    | cons w ws => exact clientStep_run_work todo trivial
  | pending counts todo loaded quiet book =>
    exact .inr (serverStep_pending_work counts.1 quiet)
  | @dispatched _ _ a counts todo loaded pc available handled book =>
    right
    intro cache
    refine ⟨_, by simp only [serverStep, pc]; rfl, ?_⟩
    have hnd := hdel pc
    have harm : (arm s.message.ctrl).length ≤ 2 := by
      unfold arm
      split_ifs <;> simp [closeArm]
    simp only [work, serverAt, pc, ServerPc.work]
    omega
  | @serving _ _ a counts todo loaded pc noDel available handled book =>
    right
    cases a with
    | destroy => exact serverStep_run_work pc
    | call k =>
      cases k with
      | delKV key => exact absurd rfl noDel
      | setKV key value => exact serverStep_run_work pc
      | getKV key => exact serverStep_run_work pc
  | stored counts todo pc available handled book => exact .inr (serverStep_run_work pc)
  | found counts todo pc available handled book => exact .inr (serverStep_run_work pc)
  | replied counts todo quiet book =>
    left
    exact ⟨_, by simp only [clientStep, todo, counts.2.2, Nat.zero_lt_one, if_true]; rfl,
      by simp [work, goto, todo, Stmt.work]⟩
  | reading counts todo quiet reading book =>
    left
    obtain ⟨rfl | rfl | rfl, -⟩ | ⟨rfl, -⟩ := reading
    all_goals exact clientStep_run_work todo trivial
  | closed counts todo pc handled book =>
    right
    obtain hp | ⟨ha, hp | hp⟩ := pc
    · exact serverStep_run_work hp
    · intro cache
      exact ⟨_, by simp only [serverStep, hp]; rfl, by simp [work, serverAt, hp, ha, ServerPc.work]⟩
    · exact absurd hp hpc

/-- At the switch the server has a request of an action done, holds the only right to the
message and has not handled `SIG_CLOSE`. -/
theorem Phase.of_dispatch {c : CachelibClient} {s : Session} {done rest : List Action}
    (h : s.Phase c done rest) (hpc : s.server.pc = .dispatch) :
    s.Counts 0 0 0 ∧ sigClose ∉ s.server.handled ∧ ∃ a ∈ done, s.message.ctrl = a.ctrl := by
  have hquiet : ¬ s.Quiet := by
    rintro ⟨-, ⟨n, hp⟩ | hp | hp, -⟩ <;> simp [hp] at hpc
  cases h with
  | free _ _ quiet _ _ => exact absurd quiet hquiet
  | writing _ _ _ _ quiet _ => exact absurd quiet hquiet
  | pending _ _ _ quiet _ => exact absurd quiet hquiet
  | @dispatched _ _ a counts _ loaded _ _ handled _ =>
    obtain ⟨m, hm⟩ := loaded
    refine ⟨counts, ?_, a, by simp, by rw [hm, Action.ctrl_writeAll]⟩
    rw [handled, List.mem_map]
    rintro ⟨e, -, he⟩
    cases e <;> cases he
  | serving _ _ _ pc _ _ _ _ => simp [pc] at hpc
  | stored _ _ pc _ _ _ => simp [pc] at hpc
  | found _ _ pc _ _ _ => simp [pc] at hpc
  | replied _ _ quiet _ => exact absurd quiet hquiet
  | reading _ _ quiet _ _ => exact absurd quiet hquiet
  | closed _ _ pc _ _ => obtain hp | ⟨-, hp | hp⟩ := pc <;> simp [hp] at hpc

end Session

/-! ## Worlds -/

namespace World

variable {ι : Type*} [DecidableEq ι]

/-- What a step does to one session. -/
theorem step_session {w w' : World ι} {l : Label ι} (h : w.step l = some w') (i : ι) :
    w'.session i = w.session i ∨
      (∃ r, (w.session i).clientStep r = some (w'.session i)) ∨
      ∃ b out, l = .server i b ∧ (w.session i).serverStep b w.cache = some out ∧
        w'.session i = out.2.1 := by
  cases l with
  | client j r =>
    obtain ⟨s, hs, rfl⟩ := Option.map_eq_some_iff.mp h
    by_cases hij : i = j
    · subst hij
      exact .inr (.inl ⟨r, by simpa using hs⟩)
    · exact .inl (Function.update_of_ne hij _ _)
  | server j b =>
    obtain ⟨out, hs, rfl⟩ := Option.map_eq_some_iff.mp h
    by_cases hij : i = j
    · subst hij
      exact .inr (.inr ⟨b, out, rfl, hs, Function.update_self _ _ _⟩)
    · exact .inl (Function.update_of_ne hij _ _)
  | evict key =>
    cases h
    exact .inl rfl

variable {client : ι → CachelibClient} {calls : ι → List Call}

/-- The session is in one of its phases. -/
def InPhase (client : ι → CachelibClient) (calls : ι → List Call) (i : ι) (w : World ι) : Prop :=
  ∃ done rest, done ++ rest = lifetime (calls i) ∧ (w.session i).Phase (client i) done rest

omit [DecidableEq ι] in
theorem inPhase_start (i : ι) : (start client calls).InPhase client calls i :=
  ⟨[], lifetime (calls i), rfl, Session.phase_start _ _⟩

/-- The server is about to run the arm of a deletion. -/
def AtDeletion (i : ι) (w : World ι) : Prop :=
  (w.session i).server.pc = .dispatch ∧ (w.session i).message.ctrl = sigDel

theorem InPhase.step {i : ι} {w w' : World ι} {l : Label ι} (h : w.InPhase client calls i)
    (hno : ¬ w.AtDeletion i) (hs : w.step l = some w') : w'.InPhase client calls i := by
  obtain ⟨done, rest, hl, hp⟩ := h
  obtain heq | ⟨r, hr⟩ | ⟨b, out, -, hout, heq⟩ := step_session hs i
  · exact ⟨done, rest, hl, heq ▸ hp⟩
  · obtain ⟨done', rest', hl', hp'⟩ := hp.client hr
    exact ⟨done', rest', hl'.trans hl, hp'⟩
  · exact ⟨done, rest, hl, heq ▸ hp.server hl (fun hpc hd => hno ⟨hpc, hd⟩) hout⟩

/-- Every session in its phases can be run to its end, or up to a deletion. -/
theorem InPhase.progress {i : ι} {w : World ι} (h : w.InPhase client calls i) :
    ∃ w', Run.Reachable World.step w w' ∧ w'.InPhase client calls i ∧
      ((w'.session i).server.pc = .left ∨ w'.AtDeletion i) := by
  refine Run.Reachable.of_measure (fun w => (w.session i).work) (fun w hw hg => ?_) h
  obtain ⟨hleft, hdel⟩ := not_or.mp hg
  obtain ⟨done, rest, hl, hp⟩ := id hw
  obtain ⟨s, hs, hlt⟩ | hserver := hp.progress hl hleft fun hpc hd => hdel ⟨hpc, hd⟩
  · have hstep : World.step w (.client i .zero) =
        some { w with session := Function.update w.session i s } := by simp [World.step, hs]
    exact ⟨_, _, hstep, hw.step hdel hstep, by simpa using hlt⟩
  · obtain ⟨out, hs, hlt⟩ := hserver w.cache
    have hstep : w.step (.server i true) = some
        { cache := out.1, session := Function.update w.session i out.2.1,
          log := w.log ++ out.2.2.toList.map fun e => (i, e) } := by simp [World.step, hs]
    exact ⟨_, _, hstep, hw.step hdel hstep, by simpa using hlt⟩

omit [DecidableEq ι] in
/-- Without deletions among the calls the server never comes to one. -/
theorem InPhase.not_atDeletion {i : ι} {w : World ι} (h : w.InPhase client calls i)
    (hno : ∀ key, Call.delKV key ∉ calls i) : ¬ w.AtDeletion i := by
  rintro ⟨hpc, hctrl⟩
  obtain ⟨done, rest, hl, hp⟩ := h
  obtain ⟨-, -, a, hmem, ha⟩ := hp.of_dispatch hpc
  have hmem' : a ∈ lifetime (calls i) := hl ▸ List.mem_append_left rest hmem
  obtain ⟨key, rfl⟩ := Action.eq_delKV (ha.symm.trans hctrl)
  simp only [lifetime, List.mem_append, List.mem_map, List.mem_singleton, reduceCtorEq, or_false,
    Action.call.injEq, exists_eq_right] at hmem'
  exact hno key hmem'

/-- A server statement as a step of the world. -/
theorem exists_step_server {i : ι} {w : World ι} {b : Bool}
    {out : Cache × Session × Option Executed}
    (h : (w.session i).serverStep b w.cache = some out) :
    ∃ w', World.step w (.server i b) = some w' ∧ w'.session i = out.2.1 :=
  ⟨_, by simp only [World.step, h, Option.map_some]; rfl, Function.update_self ..⟩

/-- A deletion breaks the law: its arm frees the message and then has another post ahead. -/
theorem AtDeletion.breaks {i : ι} {w : World ι} (hd : w.AtDeletion i)
    (hc : (w.session i).Counts 0 0 0) (hclose : sigClose ∉ (w.session i).server.handled) :
    ∃ w', Run.Reachable World.step w w' ∧ ¬ (w'.session i).Law := by
  obtain ⟨hpc, hctrl⟩ := hd
  obtain ⟨hA, hS, hB⟩ := hc
  -- the switch, the deletion itself and the first of its two posts
  obtain ⟨w₁, hw₁, hs₁⟩ := exists_step_server (i := i) (w := w) (b := true)
    (by simp only [Session.serverStep, hpc]; rfl)
  rw [hctrl] at hs₁
  obtain ⟨w₂, hw₂, hs₂⟩ := exists_step_server (i := i) (w := w₁) (b := true)
    (by simp only [Session.serverStep, hs₁]; rfl)
  obtain ⟨w₃, hw₃, hs₃⟩ := exists_step_server (i := i) (w := w₂) (b := true)
    (by simp only [Session.serverStep, hs₂]; rfl)
  refine ⟨w₃, (((Run.Reachable.refl w).tail hw₁).tail hw₂).tail hw₃, fun hlaw => ?_⟩
  have htokens : (w₃.session i).tokens = 1 := by
    rw [hs₃]
    show (w.session i).semaphore + ((w.session i).semaphoreServer + 1) +
      (w.session i).semaphoreGetBack = 1
    rw [hA, hS, hB]
  have hinside : (w₃.session i).serverInside = true := by
    rw [hs₃]
    rfl
  have hhandled : (w₃.session i).server.handled = (w.session i).server.handled ++ [sigDel] := by
    rw [hs₃]
    rfl
  have hsum := hlaw.conserved (by
    rw [hhandled, List.mem_append, not_or]
    exact ⟨hclose, by decide⟩)
  rw [htokens, Session.inside, hinside, Bool.toNat_true] at hsum
  omega

/-! ## Token conservation -/

/-- The session keeps to its law and can be run to its end. -/
def TokenLaw (calls : ι → List Call) (i : ι) (w : World ι) : Prop :=
  (w.session i).Law ∧
    ∃ w', Run.Reachable World.step w w' ∧ (w'.session i).Finished (calls i)

/-- In every reachable state of every interleaving the session keeps to its law and can be
run to its end, exactly if its client never deletes. -/
theorem tokenLaw_iff (client : ι → CachelibClient) (calls : ι → List Call) (i : ι) :
    (∀ w, Run.Reachable World.step (start client calls) w → TokenLaw calls i w) ↔
      ∀ key, Call.delKV key ∉ calls i := by
  constructor
  · intro h key hmem
    obtain ⟨w, hw, ⟨done, rest, hl, hp⟩, hleft | hdel⟩ :=
      (@inPhase_start _ client calls i).progress
    · obtain ⟨-, -, hposted, hexec⟩ := hp.finished hl hleft
      obtain ⟨-, -, -, book⟩ := hp.of_left hleft
      have hctrl : sigDel ∈ (w.session i).client.posted.map Request.ctrl := by
        rw [hposted]
        exact List.mem_map.mpr ⟨.call (.delKV key), by simp [lifetime, hmem], rfl⟩
      rw [hexec, List.map_append, List.mem_append, List.map_map, List.mem_map] at hctrl
      obtain ⟨e, he, hed⟩ | hclose := hctrl
      · exact book.noDel e he hed
      · exact absurd hclose (by decide)
    · obtain ⟨hcounts, hclose, -⟩ := hp.of_dispatch hdel.1
      obtain ⟨w', hw', hlaw⟩ := hdel.breaks hcounts hclose
      exact hlaw (h w' (hw.trans hw')).1
  · intro hno w hw
    have hin : w.InPhase client calls i := hw.invariant
      (fun w l w' hw hs => hw.step (hw.not_atDeletion hno) hs) (inPhase_start i)
    obtain ⟨w', hw', ⟨done', rest', hl', hp'⟩, hleft | hdel⟩ := hin.progress
    · obtain ⟨done, rest, hl, hp⟩ := hin
      exact ⟨hp.law, w', hw', hp'.finished hl' hleft⟩
    · exact absurd hdel (InPhase.not_atDeletion ⟨done', rest', hl', hp'⟩ hno)

/-- One deletion of the key `k` by a client of the pool `p`. -/
def deleting : World Unit := start (fun _ => ⟨0, [112]⟩) fun _ => [.delKV [107]]

/-- A run of that client's deletion and of its server until it leaves the loop. -/
def deletion : List (Label Unit) :=
  List.replicate 6 (.client () .zero) ++ List.replicate 7 (.server () true)

/-- After one deletion the server has left its loop without a `SIG_CLOSE`, and there are
two rights to the message. -/
theorem tokenLaw_fails :
    ¬ ∀ w, Run.Reachable World.step deleting w → TokenLaw (fun _ => [.delKV [107]]) () w := by
  intro h
  have hrun : (Run.exec World.step deleting deletion).map (fun w =>
      ((w.session ()).server.pc, (w.session ()).server.handled, (w.session ()).tokens)) =
      some (.left, [sigDel], 2) := by decide +kernel
  obtain ⟨w, hw, hend⟩ := Option.map_eq_some_iff.mp hrun
  simp only [Prod.mk.injEq] at hend
  have hclose := (h w ⟨deletion, hw⟩).1.closes hend.1
  rw [hend.2.1] at hclose
  exact absurd hclose (by decide)

end World

end CachelibArchive.ClientServer
