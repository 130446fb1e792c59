import CachelibArchive.ClientServer.Tokens

/-!
# Sets and gets as an atomic map

The log of the world is the order in which the servers execute requests on the cache.
It contains each client's requests once and in program order, and every string a client
returns is the reply of its get in that order: empty, or the value of the last set of
the same key that was stored.
-/

namespace CachelibArchive.ClientServer

section Log

variable {ι : Type*}

/-- The value of the last set of `key` in the log that was stored. -/
def lastSet (log : List (ι × Executed)) (key : CString) : Option CString :=
  log.reverse.findSome? fun
    | (_, .set _ key' value true) => if key' = key then some value else none
    | _ => none

/-- The executions of one session. -/
def history [DecidableEq ι] (log : List (ι × Executed)) (i : ι) : List Executed :=
  (log.filter fun p => p.1 = i).map Prod.snd

/-- A history goes on with the log. -/
theorem history_append [DecidableEq ι] (log log' : List (ι × Executed)) (i : ι) :
    history (log ++ log') i = history log i ++ history log' i := by
  simp [history]

theorem history_map [DecidableEq ι] (es : List Executed) (i j : ι) :
    history (es.map fun e => (i, e)) j = if i = j then es else [] := by
  by_cases h : i = j <;> simp [history, List.filter_map, h, Function.comp_def]

/-- Only a set that was stored changes the last set, and only for its key. -/
theorem lastSet_concat (log : List (ι × Executed)) (i : ι) (e : Executed) (key : CString) :
    lastSet (log ++ [(i, e)]) key =
      match e with
      | .set _ key' value true => if key' = key then some value else lastSet log key
      | _ => lastSet log key := by
  rw [lastSet, List.reverse_concat, List.findSome?_cons]
  cases e with
  | set pid key' value stored =>
    cases stored with
    | false => rfl
    | true => by_cases h : key' = key <;> simp [h, lastSet]
  | get key' found => rfl
  | del key' removed => rfl

/-- Every get of the log is answered by nothing or by the last set before it. -/
def GetsSeeLastSet (log : List (ι × Executed)) : Prop :=
  ∀ before i key found rest, log = before ++ (i, .get key found) :: rest →
    reply found = .empty ∨ some (reply found) = lastSet before key

/-- A log stays so if the call appended to it reads the last set. -/
theorem GetsSeeLastSet.concat {log : List (ι × Executed)} (h : GetsSeeLastSet log) (i : ι)
    (e : Executed) (he : ∀ key found, e = .get key found →
      reply found = .empty ∨ some (reply found) = lastSet log key) :
    GetsSeeLastSet (log ++ [(i, e)]) := by
  intro before j key found rest heq
  obtain rfl | ⟨rest', last, rfl⟩ := rest.eq_nil_or_concat
  · obtain ⟨rfl, hlast⟩ := List.append_inj' heq rfl
    cases hlast
    exact he key found rfl
  · rw [List.concat_eq_append, ← List.cons_append, ← List.append_assoc] at heq
    exact h before j key found rest' (List.append_inj' heq rfl).1

end Log

/-- What an execution does to the cache, and what it sees. -/
def Executed.Effect (cache cache' : Cache) : Executed → Prop
  | .set pid key value stored =>
    value.length ≤ shmValueSize ∧
      cache' = if stored then Function.update cache key (some ⟨pid, value⟩) else cache
  | .get key found => cache' = cache ∧ found = cache.find key
  | .del key _ => cache' = Function.update cache key none

/-- A server statement records what it executes, and changes the cache by that only. -/
theorem Session.serverStep_effect {s : Session} {b : Bool} {cache : Cache}
    {out : Cache × Session × Option Executed} (h : s.serverStep b cache = some out) :
    out.2.1.server.executed = s.server.executed ++ out.2.2.toList ∧
      match out.2.2 with
      | none => out.1 = cache
      | some e => e.Effect cache out.1 := by
  unfold serverStep at h
  split at h
  · split_ifs at h <;> cases h <;> exact ⟨(List.append_nil _).symm, rfl⟩
  · split_ifs at h
    cases h
    exact ⟨(List.append_nil _).symm, rfl⟩
  · cases h
    exact ⟨(List.append_nil _).symm, rfl⟩
  · rename_i stmt rest _
    cases h
    cases stmt with
    | set =>
      refine ⟨rfl, CharBuffer.length_cstr_le _ _ _, ?_⟩
      cases b <;> rfl
    | get => exact ⟨rfl, rfl, rfl⟩
    | del => exact ⟨rfl, rfl⟩
    | postGetBack => exact ⟨rfl, rfl⟩
    | postServer => exact ⟨rfl, rfl⟩
    | stop => exact ⟨rfl, rfl⟩
  · cases h
    exact ⟨(List.append_nil _).symm, rfl⟩
  · cases h

theorem Session.clientStep_server {s s' : Session} {r : Session.Draw}
    (h : s.clientStep r = some s') : s'.server = s.server := by
  unfold clientStep at h
  split at h <;> try split_ifs at h
  all_goals first | cases h; rfl | cases h

namespace World

variable {ι : Type*} [DecidableEq ι]

/-- What ties the log to the sessions and to the cache. -/
structure Consistent (w : World ι) : Prop where
  /-- The log holds what each server has executed, in its order. -/
  history_eq : ∀ i, history w.log i = (w.session i).server.executed
  /-- What the cache finds is the last set. -/
  cached : ∀ key value, w.cache.find key = some value →
    lastSet w.log key = some value ∧ value.length ≤ shmValueSize
  /-- So the gets were answered by it. -/
  gets : GetsSeeLastSet w.log

/-- An execution on the cache keeps the cache to the log. -/
theorem Consistent.execute {w : World ι} (h : w.Consistent) {i : ι} {e : Executed}
    {cache' : Cache} (he : e.Effect w.cache cache') :
    (∀ key value, cache'.find key = some value →
      lastSet (w.log ++ [(i, e)]) key = some value ∧ value.length ≤ shmValueSize) ∧
      GetsSeeLastSet (w.log ++ [(i, e)]) := by
  cases e with
  | set pid key stored flag =>
    obtain ⟨hlen, hcache⟩ := he
    refine ⟨fun key' value hf => ?_, h.gets.concat i _ (fun _ _ he => by cases he)⟩
    rw [lastSet_concat]
    cases flag with
    | false =>
      rw [hcache] at hf
      exact h.cached key' value hf
    | true =>
      rw [if_pos rfl] at hcache
      by_cases hk : key = key'
      · subst hk
        rw [hcache, find_update_same] at hf
        cases hf
        exact ⟨if_pos rfl, hlen⟩
      · rw [hcache, find_update_of_ne _ (Ne.symm hk)] at hf
        simpa [hk] using h.cached key' value hf
  | get key found =>
    obtain ⟨rfl, hfound⟩ := he
    refine ⟨fun key' value hf => ?_, h.gets.concat i _ (fun key' found' he => ?_)⟩
    · rw [lastSet_concat]
      exact h.cached key' value hf
    · cases he
      cases hf : w.cache.find key with
      | none => exact .inl (by rw [hfound, hf]; exact CString.empty_take _)
      | some value =>
        obtain ⟨hlast, hlen⟩ := h.cached key value hf
        right
        rw [hfound, hf, hlast]
        exact congrArg some (CString.take_of_length_le hlen)
  | del key removed =>
    refine ⟨fun key' value hf => ?_, h.gets.concat i _ (fun _ _ he => by cases he)⟩
    rw [lastSet_concat]
    obtain rfl := he
    exact h.cached key' value (find_of_find_remove hf)

/-- Every step of the world keeps the log consistent. -/
theorem Consistent.step {w w' : World ι} {l : Label ι} (h : w.Consistent)
    (hw : World.step w l = some w') : w'.Consistent := by
  cases l with
  | client j r =>
    obtain ⟨s, hs, rfl⟩ := Option.map_eq_some_iff.mp hw
    refine ⟨fun i => (h.history_eq i).trans ?_, h.cached, h.gets⟩
    show _ = (Function.update w.session j s i).server.executed
    by_cases hij : i = j
    · subst hij
      rw [Function.update_self, Session.clientStep_server hs]
    · rw [Function.update_of_ne hij]
  | server j b =>
    obtain ⟨⟨cache', s, e⟩, hs, rfl⟩ := Option.map_eq_some_iff.mp hw
    obtain ⟨hexec, heffect⟩ := Session.serverStep_effect hs
    have hhistory : ∀ i, history (w.log ++ e.toList.map fun e => (j, e)) i =
        (Function.update w.session j s i).server.executed := by
      intro i
      rw [history_append, history_map, h.history_eq]
      by_cases hij : i = j
      · subst hij
        rw [Function.update_self, if_pos rfl, hexec]
      · rw [Function.update_of_ne hij, if_neg (Ne.symm hij), List.append_nil]
    cases e with
    | none =>
      obtain rfl := heffect
      exact ⟨hhistory, by simpa using h.cached, by simpa using h.gets⟩
    | some e =>
      obtain ⟨hcached, hgets⟩ := h.execute (i := j) heffect
      exact ⟨hhistory, hcached, hgets⟩
  | evict key =>
    cases hw
    exact ⟨h.history_eq, fun key' value hf => h.cached key' value (find_of_find_remove hf), h.gets⟩

/-- The log starts empty. -/
theorem consistent_start (client : ι → CachelibClient) (calls : ι → List Call) :
    (start client calls).Consistent := by
  refine ⟨fun _ => rfl, fun key value h => ?_, fun before _ _ _ _ h => ?_⟩
  · cases h
  · cases before <;> cases h

/-! ## Linearization -/

/-- The log is a sequential execution of the sessions' requests that explains every reply. -/
structure Linearized (client : ι → CachelibClient) (calls : ι → List Call) (w : World ι) :
    Prop where
  /-- The requests a client has issued are an initial part of its program. -/
  program : ∀ i, (w.session i).client.posted <+:
    (lifetime (calls i)).map (Action.request (client i))
  /-- The log holds each of them once and in order, but for one still to be executed. -/
  once : ∀ i, ∃ open' : List Request,
    (w.session i).client.posted = (history w.log i).map Executed.request ++ open' ∧
      open'.length ≤ 1
  /-- Every get is answered by nothing or by the last set before it. -/
  gets : GetsSeeLastSet w.log
  /-- A client has returned the replies of its gets, in order. -/
  replies : ∀ i, (w.session i).client.replies <+: answers (history w.log i)
  /-- No session is stuck: it can be run until all its requests are executed. -/
  completes : ∀ i, ∃ w', Run.Reachable World.step w w' ∧ (w'.session i).Finished (calls i)

/-- A call of the kind and size the sessions are made for. -/
def SetOrGet (c : CachelibClient) (call : Call) : Prop :=
  (∀ key, call ≠ .delKV key) ∧ (Action.call call).Fits c

variable {client : ι → CachelibClient} {calls : ι → List Call}

/-- Sets and gets are atomic: in every reachable state of any number of sessions, under every
interleaving, eviction and failed allocation, the log linearizes the sessions. -/
theorem linearized_of_setOrGet (hcalls : ∀ i, ∀ call ∈ calls i, SetOrGet (client i) call)
    {w : World ι} (hw : Run.Reachable World.step (start client calls) w) :
    w.Linearized client calls := by
  have hcon : w.Consistent := hw.invariant (fun _ _ _ h hs => h.step hs) (consistent_start _ _)
  have hno : ∀ i key, Call.delKV key ∉ calls i := fun i key hmem =>
    (hcalls i _ hmem).1 key rfl
  have hphase : ∀ i, w.InPhase client calls i := fun i => hw.invariant
    (fun _ _ _ h hs => h.step (h.not_atDeletion (hno i)) hs) (inPhase_start i)
  have hfits : ∀ i, ∀ a ∈ lifetime (calls i), a.Fits (client i) := by
    intro i a ha
    simp only [lifetime, List.mem_append, List.mem_map, List.mem_singleton] at ha
    obtain ⟨call, hmem, rfl⟩ | rfl := ha
    · exact (hcalls i call hmem).2
    · trivial
  refine ⟨fun i => ?_, fun i => ?_, hcon.gets, fun i => ?_, fun i => ?_⟩
  · obtain ⟨done, rest, hl, hp⟩ := hphase i
    obtain ⟨open', unread, book, -⟩ := hp.exists_book
    rw [book.posted_eq fun a ha => hfits i a (hl ▸ List.mem_append_left rest ha), ← hl,
      List.map_append]
    exact List.prefix_append _ _
  · obtain ⟨done, rest, hl, hp⟩ := hphase i
    rw [hcon.history_eq]
    exact hp.law.once
  · obtain ⟨done, rest, hl, hp⟩ := hphase i
    obtain ⟨open', unread, book, -⟩ := hp.exists_book
    rw [hcon.history_eq, book.answered fun a ha => hfits i a (hl ▸ List.mem_append_left rest ha)]
    exact List.prefix_append _ _
  · obtain ⟨w', hw', ⟨done, rest, hl, hp⟩, hleft | hdel⟩ := (hphase i).progress
    · exact ⟨w', hw', hp.finished hl hleft⟩
    · exact absurd hdel (InPhase.not_atDeletion ⟨done, rest, hl, hp⟩ (hno i))

/-- Two clients of the pool `p`: one sets the key `k` to `v`, the other gets it. -/
def sharedCalls : Bool → List Call
  | false => [.setKV [107] [118]]
  | true => [.getKV [107]]

/-- The first client's set is executed before the second client begins. -/
def setThenGet : List (Label Bool) :=
  List.replicate 8 (.client false .zero) ++ List.replicate 4 (.server false true) ++
    List.replicate 6 (.client true .zero) ++ List.replicate 4 (.server true true) ++
    List.replicate 7 (.client true .zero)

theorem linearized_of_setOrGet_two :
    ∃ w, Run.exec World.step (start (fun _ => ⟨0, [112]⟩) sharedCalls) setThenGet = some w ∧
      (w.session true).client.replies.map CString.bytes = [[118]] ∧
      w.Linearized (fun _ => ⟨0, [112]⟩) sharedCalls := by
  have hrun : (Run.exec World.step (start (fun _ => ⟨0, [112]⟩) sharedCalls) setThenGet).map
      (fun w => (w.session true).client.replies.map CString.bytes) = some [[118]] := by
    decide +kernel
  obtain ⟨w, hw, hreplies⟩ := Option.map_eq_some_iff.mp hrun
  refine ⟨w, hw, hreplies, linearized_of_setOrGet (fun i call hmem => ?_) ⟨setThenGet, hw⟩⟩
  cases i with
  | false =>
    obtain rfl := List.mem_singleton.mp hmem
    exact ⟨fun key => Call.noConfusion, by decide⟩
  | true =>
    obtain rfl := List.mem_singleton.mp hmem
    exact ⟨fun key => Call.noConfusion, by decide⟩

end World

end CachelibArchive.ClientServer
