import CachelibArchive.Control.Listener
import Mathlib.Data.List.TakeWhile

/-!
# Registering a pool

The C++ client sends the pool's name with its NUL, the scheduler without; the client
reads the reply into 32 bytes and splits it at the first blank. Both sides agree on the
pool and on the session exactly if the reply leaves room for a NUL in those 32 bytes.
-/

namespace CachelibArchive.Control

open Text Server

/-- Bytes of `buffer` in `CachelibClient::addpool`. -/
abbrev replySize : Nat := 32

/-- Bytes of the field `shmId`. -/
abbrev SHM_ID_SIZE : Nat := 32

/-- The request of `CachelibClient::addpool`, whose NUL is sent too. -/
def clientRequest (poolName : Name) : List UInt8 := [65, 58] ++ poolName ++ [0]

/-- The request of the scheduler's `addpool`. -/
def schedulerRequest (poolName : Name) : List UInt8 := [65, 58] ++ poolName

/-- `CachelibClient::addpool` reading the reply: pool id and session name. A failure of `stoi`
is `none`. -/
def readReply (sent : List UInt8) : Except Fault (Option (Int × Name)) :=
  match cString (filled replySize (recv replySize sent)) with
  | .error e => .error e
  | .ok recvInfo =>
    -- without a blank its position is `npos`, and the text behind it the whole one
    let shmId := if 32 ∈ recvInfo then (recvInfo.dropWhile (· ≠ 32)).drop 1 else recvInfo
    .ok ((stoi (recvInfo.takeWhile (· ≠ 32))).map (·, shmId))

/-- Both encodings are decoded to the pool's name, and the reply to the pool's id and the name
under which the server has opened the session's objects, which fits into its field. -/
structure Agrees (poolName : Name) (pid : Nat) (newShmId : Int32) : Prop where
  client : messageText (recv bufSize (clientRequest poolName)) = .ok poolName
  scheduler : messageText (recv bufSize (schedulerRequest poolName)) = .ok poolName
  reply : readReply (sendInfo pid poolName newShmId) =
    .ok (some ((pid : Int), sessionName poolName newShmId))
  field : (sessionName poolName newShmId).length < SHM_ID_SIZE

/-- The reply of an iteration is that to the registration of the pool that was asked for. -/
theorem iteration_reply {r : Server} {sent : List UInt8} {poolName : Name} {s : Served}
    (hA : command sent = 65) (hname : messageText (recv bufSize sent) = .ok poolName)
    (h : iteration r sent = .ok s) :
    ∃ pools pid, r.pools.addpool_ poolName = .ok (pools, pid) ∧
      s.reply = sendInfo pid poolName (r.number poolName).1 := by
  simp only [iteration, head_filled, hA, hname] at h
  cases ha : r.pools.addpool_ poolName with
  | error e =>
    simp only [ha] at h
    cases h
  | ok p =>
    simp only [ha] at h
    cases h
    exact ⟨p.1, p.2, rfl, rfl⟩

/-! ## Numerals in the reply -/

theorem zero_not_mem_sendInfo {poolName : Name} (hname : 0 ∉ poolName) (pid : Nat)
    (newShmId : Int32) : 0 ∉ sendInfo pid poolName newShmId := by
  simp [sendInfo, sessionName, hname, not_mem_decimal, zero_not_mem_decimalInt]

/-! ## Both directions of the conversation -/

/-- A name that leaves room for a NUL is decoded from a request, with or without its NUL. -/
theorem messageText_request {poolName rest : Name} (hname : 0 ∉ poolName)
    (hrest : rest = [] ∨ rest = [0]) (hlen : poolName.length + 2 < bufSize) :
    messageText (recv bufSize ([65, 58] ++ poolName ++ rest)) = .ok poolName := by
  have hnul : ∀ b ∈ [65, 58] ++ poolName, (decide (b ≠ 0)) = true := by
    intro b hb
    refine decide_eq_true ?_
    rintro rfl
    simp [hname] at hb
  have hstop : ∀ b ∈ rest.head?, (decide (b ≠ 0)) = false := by
    intro b hb
    obtain rfl | rfl := hrest
    · cases hb
    · cases hb
      rfl
  have hfits : ([65, 58] ++ poolName ++ rest).length ≤ bufSize := by
    obtain rfl | rfl := hrest <;> simp <;> omega
  have htext : receivedText ([65, 58] ++ poolName ++ rest) = [65, 58] ++ poolName := by
    rw [receivedText, recv, List.take_of_length_le hfits, takeWhile_append_of_stop hnul hstop]
  refine messageText_eq_ok.mpr ⟨?_, ?_, ?_⟩
  · obtain rfl | rfl := hrest
    · left
      simp
      omega
    · right
      rw [recv, List.take_of_length_le hfits]
      simp
  · rw [htext]
    simp
  · rw [htext]
    rfl

/-- A reply that leaves room for a NUL is split into the id and the session's name. -/
theorem readReply_sendInfo {poolName : Name} {pid : Nat} {newShmId : Int32} (hname : 0 ∉ poolName)
    (hpid : pid < 2 ^ 31) (hlen : (sendInfo pid poolName newShmId).length < replySize) :
    readReply (sendInfo pid poolName newShmId) =
      .ok (some ((pid : Int), sessionName poolName newShmId)) := by
  have hnul : ∀ b ∈ sendInfo pid poolName newShmId, (decide (b ≠ 0)) = true := by
    intro b hb
    refine decide_eq_true ?_
    rintro rfl
    exact zero_not_mem_sendInfo hname pid newShmId hb
  have hmem : (0 : UInt8) ∈ filled replySize (recv replySize (sendInfo pid poolName newShmId)) := by
    rw [filled, recv, List.take_of_length_le (Nat.le_of_lt hlen), List.mem_append,
      List.mem_replicate]
    exact .inr ⟨by omega, rfl⟩
  have htext : (filled replySize (recv replySize (sendInfo pid poolName newShmId))).takeWhile
      (· ≠ 0) = decimal pid ++ 32 :: sessionName poolName newShmId := by
    rw [takeWhile_filled, recv, List.take_of_length_le (Nat.le_of_lt hlen)]
    exact List.takeWhile_eq_self_iff.mpr hnul
  have hblank : ∀ b ∈ decimal pid, (decide (b ≠ 32)) = true := by
    intro b hb
    refine decide_eq_true ?_
    rintro rfl
    exact blank_not_mem_decimal pid hb
  have hstop : ∀ b ∈ (32 :: sessionName poolName newShmId).head?, (decide (b ≠ 32)) = false := by
    intro b hb
    cases hb
    rfl
  rw [readReply, cString, if_pos hmem, htext]
  simp only [takeWhile_append_of_stop hblank hstop, dropWhile_append_of_stop hblank hstop,
    stoi_decimal hpid]
  simp

/-- A reply that fills the client's buffer is read out of bounds. -/
theorem readReply_long {poolName : Name} {pid : Nat} {newShmId : Int32} (hname : 0 ∉ poolName)
    (hlen : replySize ≤ (sendInfo pid poolName newShmId).length) :
    readReply (sendInfo pid poolName newShmId) = .error .outOfBounds := by
  have hmem : (0 : UInt8) ∉ filled replySize (recv replySize (sendInfo pid poolName newShmId)) := by
    rw [filled, recv, List.length_take, Nat.min_eq_left hlen, Nat.sub_self, List.replicate_zero,
      List.append_nil]
    exact fun h => zero_not_mem_sendInfo hname pid newShmId (List.mem_of_mem_take h)
  rw [readReply, cString, if_neg hmem]

/-- Client and server agree exactly if the reply is shorter than the client's buffer. -/
theorem agrees_iff {poolName : Name} {pid : Nat} {newShmId : Int32} (hname : 0 ∉ poolName)
    (hpid : pid < 2 ^ 31) :
    Agrees poolName pid newShmId ↔ (sendInfo pid poolName newShmId).length < replySize := by
  constructor
  · intro h
    by_contra hlong
    have hreply := h.reply
    rw [readReply_long hname (Nat.not_lt.mp hlong)] at hreply
    cases hreply
  · intro hlen
    have hparts : (sendInfo pid poolName newShmId).length =
        (decimal pid).length + (1 + (sessionName poolName newShmId).length) := by
      simp [sendInfo, Nat.add_comm]
    have hsession : (sessionName poolName newShmId).length =
        poolName.length + (1 + (decimalInt newShmId.toInt).length) := by
      simp [sessionName, Nat.add_comm]
    have hshort : poolName.length + 2 < bufSize := by
      unfold bufSize
      unfold replySize at hlen
      omega
    refine ⟨messageText_request hname (.inr rfl) hshort, ?_, readReply_sendInfo hname hpid hlen, ?_⟩
    · have hplain := messageText_request hname (.inl rfl) hshort
      rwa [List.append_nil] at hplain
    · unfold SHM_ID_SIZE
      unfold replySize at hlen
      omega

/-- The first session of the first pool, `tmdb`. -/
theorem agrees_iff_tmdb :
    Agrees [116, 109, 100, 98] 0 0 ↔ (sendInfo 0 [116, 109, 100, 98] 0).length < replySize :=
  agrees_iff (by decide) (by decide)

/-- A pool whose name has 28 bytes: the reply fills the client's buffer. -/
theorem not_agrees_long : ¬ Agrees (List.replicate 28 97) 0 0 := by
  intro h
  have hlen : replySize ≤ (sendInfo 0 (List.replicate 28 97) 0).length := by decide
  have hreply := h.reply
  rw [readReply_long (by decide) hlen] at hreply
  cases hreply

end CachelibArchive.Control
