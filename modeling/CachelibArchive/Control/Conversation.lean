import CachelibArchive.Control.Listener
import CachelibArchive.Core.Run

/-!
# Conversations with the listener

The loop of `listen_addpool` over whole runs: anyone connects with any message, and in between
the threads of ended sessions take themselves off `poolRecord`. The pools are then exactly those
that were registered, in the order of their first registration, and the id in a reply stays the
id of its pool for as long as the server lives. A session's thread may end the server when its
name is refused; that only makes a run shorter.
-/

namespace CachelibArchive.Control

namespace PoolTable

/-! ## Operations on the pools -/

/-- The same memory, and the pools of these names under their ids. -/
structure Named (t t' : PoolTable) (names : List Name) : Prop where
  capacity : t'.capacity = t.capacity
  poolSize : t'.poolSize = t.poolSize
  names : t'.names = names

theorem Named.refl (t : PoolTable) : Named t t t.names := ⟨rfl, rfl, rfl⟩

/-- Steps that keep the names one after the other. -/
theorem Named.trans {t t₁ t₂ : PoolTable} {names₁ names₂ : List Name} (h₁ : Named t t₁ names₁)
    (h₂ : Named t₁ t₂ names₂) : Named t t₂ names₂ :=
  ⟨h₂.capacity.trans h₁.capacity, h₂.poolSize.trans h₁.poolSize, h₂.names⟩

/-- Growing a pool changes no name. -/
theorem named_growPool (t : PoolTable) (pid b : Nat) : Named t (t.growPool pid b).1 t.names := by
  unfold growPool
  split
  · exact ⟨rfl, rfl, map_fst_modify t.pools pid (· + b)⟩
  · exact .refl t

/-- Nor does shrinking one. -/
theorem named_shrinkPool (t : PoolTable) (pid b : Nat) :
    Named t (t.shrinkPool pid b).1 t.names := by
  unfold shrinkPool
  split
  · exact ⟨rfl, rfl, map_fst_modify t.pools pid (· - b)⟩
  · exact .refl t

/-- So a resize keeps the names. -/
theorem named_resizePool {t t' : PoolTable} {name : Name} {new : Nat} {done : Option Bool}
    (h : t.resizePool name new = .ok (t', done)) : Named t t' t.names := by
  unfold resizePool at h
  split at h
  · cases h
  · next pid _ =>
    split at h
    · cases h
    · next currSize _ =>
      split_ifs at h
      · cases h
        exact named_growPool t pid (new - currSize)
      · cases h
        exact named_shrinkPool t pid (currSize - new)
      · cases h
        exact .refl t

/-- And the whole request does. -/
theorem named_resizeLoop {due : Nat → Nat → Bool} {entries : List (Name × Nat)} {t t' : PoolTable}
    {done : List (Option Bool)} (h : resizeLoop due t entries = .ok (t', done)) :
    Named t t' t.names := by
  induction entries generalizing t done with
  | nil =>
    cases h
    exact .refl _
  | cons e rest ih =>
    obtain ⟨poolName, poolSize⟩ := e
    rw [resizeLoop] at h
    split at h
    · cases h
    · split_ifs at h
      · split at h
        · cases h
        · next t₁ done₁ hok =>
          have hnamed := named_resizePool hok
          cases hrest : resizeLoop due t₁ rest with
          | error f =>
            rw [hrest] at h
            cases h
          | ok r =>
            rw [hrest] at h
            cases h
            rw [← hnamed.names]
            exact hnamed.trans (ih hrest)
      · exact ih h

/-- A configuration neither makes nor removes pools. -/
theorem named_executeNewConfig {t t' : PoolTable} {config : List UInt8}
    {done : List (Option Bool)} (h : t.executeNewConfig config = .ok (t', done)) :
    Named t t' t.names := by
  unfold executeNewConfig at h
  cases hshrink : t.shrinkLoop (parseConfig config) with
  | error f =>
    simp only [hshrink] at h
    cases h
  | ok r₁ =>
    cases hgrow : r₁.1.growLoop (parseConfig config) with
    | error f =>
      simp only [hshrink, hgrow] at h
      cases h
    | ok r₂ =>
      simp only [hshrink, hgrow] at h
      cases h
      have hnamed := named_resizeLoop hshrink
      rw [← hnamed.names]
      exact hnamed.trans (named_resizeLoop hgrow)

/-- A pool is known by its size. -/
theorem mem_names_iff {t : PoolTable} {name : Name} : name ∈ t.names ↔ t.size name ≠ none :=
  not_iff_not.mp (by rw [not_not]; exact lookup_eq_none_iff.symm)

/-- The id of a pool is the position of its name. -/
theorem getPoolId_eq_idxOf {t : PoolTable} {name : Name} (h : name ∈ t.names) :
    t.getPoolId name = some (t.names.idxOf name) := by
  obtain ⟨s, hs⟩ := Option.ne_none_iff_exists'.mp (mem_names_iff.mp h)
  obtain ⟨i, hid, hget⟩ := getPoolId_of_size hs
  have hname : t.names[i]? = some name := by simp [names, hget]
  obtain ⟨hi, heq⟩ := List.getElem?_eq_some_iff.mp hname
  have hnodup : t.names.Nodup := t.nodup
  rw [hid, ← heq, hnodup.idxOf_getElem i hi]

/-- A registration enters the pool's name and returns its position. -/
theorem named_addpool {t t' : PoolTable} {poolName : Name} {pid : Nat}
    (h : t.addpool_ poolName = .ok (t', pid)) :
    Named t t' (enter t.names poolName) ∧ pid = t'.names.idxOf poolName := by
  unfold addpool_ at h
  by_cases hmem : poolName ∈ t.names
  · rw [getPoolId_eq_idxOf hmem] at h
    cases h
    rw [enter, if_pos hmem]
    exact ⟨.refl t, rfl⟩
  · have hnone : t.size poolName = none := not_not.mp (mt mem_names_iff.mpr hmem)
    rw [getPoolId_of_none hnone] at h
    simp only [addPool] at h
    split_ifs at h
    cases h
    have hnames : List.map Prod.fst (t.pools ++ [(poolName, t.poolSize)]) = t.names ++ [poolName] :=
      List.map_append
    rw [enter, if_neg hmem]
    refine ⟨⟨rfl, rfl, hnames⟩, ?_⟩
    rw [names, hnames, List.idxOf_append_of_notMem hmem]
    simp [names]

end PoolTable

open PoolTable

/-! ## Runs -/

theorem Server.known_update (r : Server) {poolName : Name} (h : (r.poolRecord poolName).isSome = true)
    (record : Int32 × Int32) (name : Name)
    (hname : (Function.update r.poolRecord poolName (some record) name).isSome = true) :
    (r.name2CHS name).isSome = true := by
  apply r.known
  by_cases heq : name = poolName
  · rw [heq]
    exact h
  · rwa [Function.update_of_ne heq] at hname

/-- `poolRecord[chs->poolName].first--`, at the end of a session of the pool. -/
def Server.closed (r : Server) (poolName : Name) : Option Server :=
  if h : (r.poolRecord poolName).isSome = true then
    let record := (r.poolRecord poolName).get h
    some { r with
      poolRecord := Function.update r.poolRecord poolName (some (record.1 - 1, record.2))
      known := r.known_update h (record.1 - 1, record.2) }
  else none

/-- What happens to the listener. -/
inductive Event where
  /-- A client connects and sends these bytes. -/
  | message (sent : List UInt8)
  /-- A thread takes its session off the pool's record. -/
  | closed (poolName : Name)

/-- The listener in its loop. -/
structure Listening where
  server : Server
  /-- The loop has not been left. -/
  accepting : Bool
  /-- What the clients have sent so far, each with what was sent back. -/
  log : List (List UInt8 × List UInt8)

namespace Listening

/-- The next event; `none` is a fault. -/
def step (l : Listening) : Event → Option Listening
  | .message sent =>
    if l.accepting then
      match iteration l.server sent with
      | .error _ => none
      | .ok s => some ⟨s.server, s.continues, l.log ++ [(sent, s.reply)]⟩
    else none
  | .closed poolName => (l.server.closed poolName).map fun server => { l with server }

/-- The pool that a message registers. -/
def registered (sent : List UInt8) : Option Name :=
  if command sent = 65 then (messageText (recv bufSize sent)).toOption else none

/-- A registration is a message `A` with a readable name. -/
theorem registered_eq_some {sent : List UInt8} {poolName : Name}
    (h : registered sent = some poolName) :
    command sent = 65 ∧ messageText (recv bufSize sent) = .ok poolName := by
  unfold registered at h
  split_ifs at h with hA
  cases hname : messageText (recv bufSize sent) with
  | error e =>
    rw [hname] at h
    cases h
  | ok name =>
    rw [hname] at h
    cases h
    exact ⟨hA, rfl⟩

/-- A registration enters its pool and replies with the pool's position. -/
theorem iteration_of_registered {r : Server} {sent : List UInt8} {poolName : Name} {s : Served}
    (hreg : registered sent = some poolName) (h : iteration r sent = .ok s) :
    Named r.pools s.server.pools (enter r.pools.names poolName) ∧ ∃ newShmId,
      s.reply = Server.sendInfo (s.server.pools.names.idxOf poolName) poolName newShmId := by
  obtain ⟨hA, hname⟩ := registered_eq_some hreg
  simp only [iteration, head_filled, hA, hname] at h
  cases hadd : r.pools.addpool_ poolName with
  | error e =>
    simp only [hadd] at h
    cases h
  | ok p =>
    obtain ⟨hnamed, hpid⟩ := named_addpool hadd
    simp only [hadd] at h
    cases h
    rw [hpid]
    exact ⟨hnamed, _, rfl⟩

/-- No other message makes a pool. -/
theorem iteration_of_not_registered {r : Server} {sent : List UInt8} {s : Served}
    (hreg : registered sent = none) (h : iteration r sent = .ok s) :
    Named r.pools s.server.pools r.pools.names := by
  simp only [iteration, head_filled] at h
  split at h
  · next hA =>
    -- the text of a registration is read, or the iteration fails
    cases hname : messageText (recv bufSize sent) with
    | error e =>
      simp only [hname] at h
      cases h
    | ok poolName =>
      rw [registered, if_pos (Option.some.inj hA), hname] at hreg
      cases hreg
  · cases h
    exact .refl _
  · cases hname : messageText (recv bufSize sent) with
    | error e =>
      simp only [hname] at h
      cases h
    | ok getMessage =>
      cases hconfig : r.pools.executeNewConfig getMessage with
      | error e =>
        simp only [hname, hconfig] at h
        cases h
      | ok p =>
        simp only [hname, hconfig] at h
        cases h
        exact named_executeNewConfig hconfig
  · cases h
    exact .refl _
  · cases h
    exact .refl _

/-- Names entered one after the other. -/
def entered (names : List Name) (log : List (List UInt8 × List UInt8)) : List Name :=
  (log.filterMap fun c => registered c.1).foldl enter names

/-- What the listener has made of a server with these pools. -/
structure Consistent (t : PoolTable) (l : Listening) : Prop where
  named : Named t l.server.pools (entered t.names l.log)
  replies : ∀ c ∈ l.log, ∀ poolName, registered c.1 = some poolName →
    poolName ∈ l.server.pools.names ∧ ∃ newShmId,
      c.2 = Server.sendInfo (l.server.pools.names.idxOf poolName) poolName newShmId

/-- A new pool comes behind the others. -/
theorem prefix_enter (names : List Name) (name : Name) : names <+: enter names name := by
  unfold enter
  split
  · exact List.prefix_refl names
  · exact List.prefix_append names [name]

theorem mem_enter (names : List Name) (name : Name) : name ∈ enter names name := by
  unfold enter
  split
  · assumption
  · exact List.mem_append_right names (List.mem_singleton_self name)

/-- So the numbers of the others stay. -/
theorem idxOf_of_prefix {names names' : List Name} (h : names <+: names') {name : Name}
    (hmem : name ∈ names) : names'.idxOf name = names.idxOf name := by
  obtain ⟨more, rfl⟩ := h
  exact List.idxOf_append_of_mem hmem

/-- Earlier replies stay right when pools are appended. -/
theorem Consistent.replies_of_prefix {t : PoolTable} {l : Listening} (h : Consistent t l)
    {names' : List Name} (hfront : l.server.pools.names <+: names')
    {c : List UInt8 × List UInt8} (hc : c ∈ l.log) {poolName : Name}
    (hreg : registered c.1 = some poolName) : poolName ∈ names' ∧ ∃ newShmId,
      c.2 = Server.sendInfo (names'.idxOf poolName) poolName newShmId := by
  obtain ⟨hmem, newShmId, hreply⟩ := h.replies c hc poolName hreg
  refine ⟨hfront.subset hmem, newShmId, ?_⟩
  rw [hreply, idxOf_of_prefix hfront hmem]

/-- Every message keeps the table and the log in agreement. -/
theorem Consistent.step {t : PoolTable} {l l' : Listening} {e : Event} (h : Consistent t l)
    (hstep : l.step e = some l') : Consistent t l' := by
  cases e with
  | closed poolName =>
    obtain ⟨server, hclosed, rfl⟩ := Option.map_eq_some_iff.mp hstep
    unfold Server.closed at hclosed
    split_ifs at hclosed
    cases hclosed
    exact ⟨h.named, h.replies⟩
  | message sent =>
    simp only [Listening.step] at hstep
    split_ifs at hstep
    cases hs : iteration l.server sent with
    | error f =>
      simp only [hs] at hstep
      cases hstep
    | ok s =>
      simp only [hs] at hstep
      cases hstep
      cases hreg : registered sent with
      | none =>
        have hnamed := iteration_of_not_registered hreg hs
        have hlog : entered t.names (l.log ++ [(sent, s.reply)]) = l.server.pools.names := by
          simp [entered, hreg, h.named.names]
        refine ⟨?_, fun c hc poolName hname => ?_⟩
        · rw [hlog]
          exact h.named.trans hnamed
        · rw [hnamed.names]
          obtain hc | hc := List.mem_append.mp hc
          · exact h.replies c hc poolName hname
          · rw [List.mem_singleton.mp hc] at hname
            cases hreg.symm.trans hname
      | some entering =>
        obtain ⟨hnamed, newShmId, hreply⟩ := iteration_of_registered hreg hs
        have hlog : entered t.names (l.log ++ [(sent, s.reply)]) =
            enter l.server.pools.names entering := by
          simp [entered, hreg, h.named.names]
        refine ⟨?_, fun c hc poolName hname => ?_⟩
        · rw [hlog]
          exact h.named.trans hnamed
        · rw [hnamed.names]
          obtain hc | hc := List.mem_append.mp hc
          · exact h.replies_of_prefix (prefix_enter ..) hc hname
          · rw [List.mem_singleton.mp hc] at hname ⊢
            obtain rfl := Option.some.inj (hreg.symm.trans hname)
            rw [← hnamed.names]
            refine ⟨?_, newShmId, hreply⟩
            rw [hnamed.names]
            exact mem_enter ..

/-- The listener on a server, before anyone has connected. -/
def start (r : Server) : Listening := ⟨r, true, []⟩

/-- After any conversation the pools are those of before and those that were registered, in the
order of their first registration, in the same memory; and the id in any reply to a registration
is still the one under which the cache has the pool. -/
theorem run_keeps_pools {r : Server} {events : List Event} {l : Listening}
    (h : Run.exec step (start r) events = some l) :
    Named r.pools l.server.pools (entered r.pools.names l.log) ∧
      ∀ c ∈ l.log, ∀ poolName, registered c.1 = some poolName → ∃ pid newShmId size,
        c.2 = Server.sendInfo pid poolName newShmId ∧
          l.server.pools.getPoolId poolName = some pid ∧
          l.server.pools.getPoolStats (some pid) = .ok (poolName, size) := by
  have hstart : Consistent r.pools (start r) :=
    ⟨.refl r.pools, fun c hc => absurd hc List.not_mem_nil⟩
  have hrun : Consistent r.pools l := Run.exec_invariant (fun _ _ _ => Consistent.step) hstart h
  refine ⟨hrun.named, fun c hc poolName hreg => ?_⟩
  obtain ⟨hmem, newShmId, hreply⟩ := hrun.replies c hc poolName hreg
  obtain ⟨s, hs⟩ := Option.ne_none_iff_exists'.mp (mem_names_iff.mp hmem)
  obtain ⟨pid, hid, hget⟩ := getPoolId_of_size hs
  have hpid : l.server.pools.names.idxOf poolName = pid :=
    Option.some.inj ((getPoolId_eq_idxOf hmem).symm.trans hid)
  refine ⟨pid, newShmId, s, ?_, hid, ?_⟩
  · rw [hreply, hpid]
  · simp [PoolTable.getPoolStats, hget]

/-- A session of a pool `a`, one of a pool `b` once it has ended, a larger `a`, and another
session of `a`. -/
def twoSessions : List Event :=
  [.message [65, 58, 97], .closed [97], .message [65, 58, 98], .message [83, 58, 97, 10, 50],
    .message [65, 58, 97]]

theorem run_keeps_pools_twoSessions : ∃ l,
    Run.exec step (start Server.start) twoSessions = some l ∧
      l.server.pools.names = [[97], [98]] ∧
      ∀ c ∈ l.log, ∀ poolName, registered c.1 = some poolName → ∃ pid newShmId size,
        c.2 = Server.sendInfo pid poolName newShmId ∧
          l.server.pools.getPoolId poolName = some pid ∧
          l.server.pools.getPoolStats (some pid) = .ok (poolName, size) := by
  have hrun : (Run.exec step (start Server.start) twoSessions).map
      (fun l => l.log.map Prod.fst) = some [[65, 58, 97], [65, 58, 98], [83, 58, 97, 10, 50],
        [65, 58, 97]] := by
    decide +kernel
  obtain ⟨l, hl, hlog⟩ := Option.map_eq_some_iff.mp hrun
  obtain ⟨hnamed, hreplies⟩ := run_keeps_pools hl
  refine ⟨l, hl, ?_, hreplies⟩
  have hregistered : l.log.filterMap (fun c => registered c.1) = [[97], [98], [97]] := by
    rw [show (fun c : List UInt8 × List UInt8 => registered c.1) = registered ∘ Prod.fst from rfl,
      ← List.filterMap_map, hlog]
    decide +kernel
  rw [hnamed.names, entered, hregistered]
  decide

end Listening

end CachelibArchive.Control
