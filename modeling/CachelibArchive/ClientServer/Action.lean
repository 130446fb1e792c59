import CachelibArchive.ClientServer.Session

/-!
# The shape of an action

Every call of the client, and the destructor, waits for the message, writes a request
into it and posts; only a get goes on to read a reply. What the request means depends
on its strings fitting their arrays.
-/

namespace CachelibArchive.ClientServer

namespace Action

/-- How an action waits for the message. -/
def acquire : Action → Stmt
  | .call (.getKV _) => .waitServer
  | _ => .tryServer

/-- What an action writes into the message. -/
def writes (c : CachelibClient) : Action → List Write
  | .call (.setKV key value) =>
    [.ctrl sigSet, .pid c.pid, .clearKey, .clearValue, .putKey (c.prefixed key),
     .putValue (.ofBytes value)]
  | .call (.getKV key) => [.ctrl sigGet, .clearKey, .clearValue, .putKey (c.prefixed key)]
  | .call (.delKV key) => [.ctrl sigDel, .clearKey, .clearValue, .putKey (c.prefixed key)]
  | .destroy => [.ctrl sigClose]

/-- What an action does once its request is posted. -/
def after : Action → List Stmt
  | .call (.getKV _) => [.tryGetBack, .clearGetValue, .draw]
  | _ => []

/-- The request code of an action. -/
def ctrl : Action → Int
  | .call (.setKV ..) => sigSet
  | .call (.getKV _) => sigGet
  | .call (.delKV _) => sigDel
  | .destroy => sigClose

/-- The request an action means. -/
def request (c : CachelibClient) : Action → Request
  | .call (.setKV key value) => .set c.pid (c.prefixed key) (.ofBytes value)
  | .call (.getKV key) => .get (c.prefixed key)
  | .call (.delKV key) => .del (c.prefixed key)
  | .destroy => .close

/-- Key and value are shorter than their arrays. -/
def Fits (c : CachelibClient) : Action → Prop
  | .call (.setKV key value) =>
    (c.prefixed key).length < shmKeySize ∧ (CString.ofBytes value).length < shmValueSize
  | .call (.getKV key) | .call (.delKV key) => (c.prefixed key).length < shmKeySize
  | .destroy => True

instance (c : CachelibClient) : (a : Action) → Decidable (a.Fits c)
  | .call (.setKV _ _) => inferInstanceAs (Decidable (_ ∧ _))
  | .call (.getKV _) => inferInstanceAs (Decidable (_ < _))
  | .call (.delKV _) => inferInstanceAs (Decidable (_ < _))
  | .destroy => inferInstanceAs (Decidable True)

/-- Every action waits, writes, posts and then reads its reply if it has one. -/
theorem stmts_eq (c : CachelibClient) (a : Action) :
    a.stmts c = a.acquire :: ((a.writes c).map .write ++ .post :: a.after) := by
  cases a with
  | call k => cases k <;> rfl
  | destroy => rfl

@[simp] theorem ctrl_writeAll (c : CachelibClient) (a : Action) (m : ShmStru) :
    (m.writeAll (a.writes c)).ctrl = a.ctrl := by
  cases a with
  | call k => cases k <;> rfl
  | destroy => rfl

/-- Only a deletion has the code `SIG_DEL`. -/
theorem eq_delKV {a : Action} (h : a.ctrl = sigDel) : ∃ key, a = .call (.delKV key) := by
  cases a with
  | destroy => cases h
  | call k =>
    cases k with
    | setKV key value => cases h
    | getKV key => cases h
    | delKV key => exact ⟨key, rfl⟩

/-- A message written by an action that fits carries the request the action means. -/
theorem request_writeAll {c : CachelibClient} {a : Action} (h : a.Fits c) (m : ShmStru) :
    (m.writeAll (a.writes c)).request = a.request c := by
  cases a with
  | destroy => rfl
  | call k =>
    cases k with
    | setKV key value =>
      obtain ⟨hk, hv⟩ := ShmStru.write_putKey_putValue
        (m.writeAll [.ctrl sigSet, .pid c.pid, .clearKey, .clearValue]) h.1 h.2
      exact congrArg₂ (Request.set c.pid) hk hv
    | getKV key =>
      have hk := (ShmStru.write_clearValue_putKey (m.writeAll [.ctrl sigGet, .clearKey]) h).1
      exact congrArg Request.get hk
    | delKV key =>
      have hk := (ShmStru.write_clearValue_putKey (m.writeAll [.ctrl sigDel, .clearKey]) h).1
      exact congrArg Request.del hk

/-- A get that fits leaves the value array clear for the reply. -/
theorem zeroAt_writeAll {c : CachelibClient} {key : List UInt8}
    (h : (call (.getKV key)).Fits c) (m : ShmStru) :
    (m.writeAll ((call (.getKV key)).writes c)).text.ZeroAt shmKeySize shmValueSize :=
  (ShmStru.write_clearValue_putKey (m.writeAll [.ctrl sigGet, .clearKey]) h).2

end Action

@[simp] theorem program_nil (c : CachelibClient) : program c [] = [] := rfl

theorem program_cons (c : CachelibClient) (a : Action) (rest : List Action) :
    program c (a :: rest) =
      a.acquire :: ((a.writes c).map .write ++ .post :: (a.after ++ program c rest)) := by
  simp [program, Action.stmts_eq]

/-- A program is over or begins by waiting for the message. -/
theorem program_cases (c : CachelibClient) (rest : List Action) :
    program c rest = [] ∨ ∃ todo, program c rest = .tryServer :: todo ∨
      program c rest = .waitServer :: todo := by
  cases rest with
  | nil => exact .inl rfl
  | cons a rest =>
    right
    rw [program_cons]
    cases a with
    | destroy => exact ⟨_, .inl rfl⟩
    | call k => cases k <;> simp [Action.acquire]

/-- Nothing follows the destructor. -/
theorem rest_eq_nil {calls : List Call} {done rest : List Action}
    (h : done ++ [.destroy] ++ rest = lifetime calls) : rest = [] := by
  obtain rfl | ⟨init, last, rfl⟩ := rest.eq_nil_or_concat
  · rfl
  · rw [lifetime, List.concat_eq_append, ← List.append_assoc] at h
    have hinit := (List.append_inj' h rfl).1
    have hmem : Action.destroy ∈ calls.map Action.call := by simp [← hinit]
    simp at hmem

end CachelibArchive.ClientServer
