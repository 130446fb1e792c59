import Mathlib.Data.List.TakeWhile

/-!
# Names of shared memory and semaphores

Both are files of one directory. The slashes in front of a name are dropped, any other slash is
refused, and the file of a semaphore begins with four characters of its own.
-/

namespace KernelName

/-- Longest name of a file. -/
abbrev NAME_MAX : Nat := 255

/-- A name behind its leading slashes. -/
def stripped (name : List UInt8) : List UInt8 := name.dropWhile (· = 47)

/-- What the files of semaphores begin with, `sem.`. -/
abbrev semStart : List UInt8 := [115, 101, 109, 46]

/-- The file of a name, if it is accepted. -/
def file (start name : List UInt8) : Option (List UInt8) :=
  if stripped name ≠ [] ∧ 47 ∉ stripped name ∧ (start ++ stripped name).length ≤ NAME_MAX then
    some (start ++ stripped name)
  else none

/-- The file that `shm_open` and `shm_unlink` take a name for. -/
def shmFile : List UInt8 → Option (List UInt8) := file []

/-- The file that `sem_open` and `sem_unlink` take a name for. -/
def semFile : List UInt8 → Option (List UInt8) := file semStart

theorem file_eq_some {start name path : List UInt8} (h : file start name = some path) :
    path = start ++ stripped name := by
  unfold file at h
  split_ifs at h
  exact (Option.some.inj h).symm

theorem isSome_file_iff {start name : List UInt8} : (file start name).isSome = true ↔
    stripped name ≠ [] ∧ 47 ∉ stripped name ∧ (start ++ stripped name).length ≤ NAME_MAX := by
  unfold file
  split_ifs with h
  · exact iff_of_true rfl h
  · exact iff_of_false Bool.false_ne_true h

/-- A name for a semaphore is one for shared memory. -/
theorem isSome_shmFile_of_semFile {name : List UInt8} (h : (semFile name).isSome = true) :
    (shmFile name).isSome = true := by
  obtain ⟨hne, hslash, hlen⟩ := isSome_file_iff.mp h
  refine isSome_file_iff.mpr ⟨hne, hslash, ?_⟩
  rw [List.length_append] at hlen ⊢
  exact Nat.le_trans (Nat.add_le_add_right (Nat.zero_le _) _) hlen

/-- From a character on that is no slash, a name stays as it is. -/
theorem stripped_append_cons {c : UInt8} (hc : c ≠ 47) (front rest : List UInt8) :
    stripped (front ++ c :: rest) = stripped front ++ c :: rest := by
  unfold stripped
  induction front with
  | nil => simp [hc]
  | cons b front ih =>
    by_cases hb : b = 47
    · simpa [hb] using ih
    · simp [hb]

end KernelName
