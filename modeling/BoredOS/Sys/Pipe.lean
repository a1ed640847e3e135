import Mathlib

/-!
# Pipes

The ring of a pipe and the calls of `sys/syscall_file.c` on it. The bytes between the two positions
are the contents: a byte that is put goes to their end, and one that is taken comes from their
front. Reads and writes move as many bytes as they can and never wait.
-/

namespace BoredOS.Sys

open List Function Nat

/-- `sizeof(pipe->data)`. -/
def pipeSize : ℕ := 4096

/-- `process_fd_pipe_t`, without the counters of its ends. -/
structure Pipe where
  data : ℕ → BitVec 8
  readPos : ℕ
  writePos : ℕ
  count : ℕ
  readPos_lt : readPos < pipeSize
  count_le : count ≤ pipeSize
  writePos_eq : writePos = (readPos + count) % pipeSize

namespace Pipe

/-- A new pipe, as `fs_create_pipe_state` makes it. -/
def empty : Pipe := ⟨fun _ => 0, 0, 0, 0, by decide, by decide, rfl⟩

def put (pipe : Pipe) (b : BitVec 8) (h : pipe.count ≠ pipeSize) : Pipe where
  data := update pipe.data pipe.writePos b
  readPos := pipe.readPos
  writePos := (pipe.writePos + 1) % pipeSize
  count := pipe.count + 1
  readPos_lt := pipe.readPos_lt
  count_le := lt_of_le_of_ne pipe.count_le h
  writePos_eq := by rw [pipe.writePos_eq, Nat.mod_add_mod, Nat.add_assoc]

def drop (pipe : Pipe) (h : pipe.count ≠ 0) : Pipe where
  data := pipe.data
  readPos := (pipe.readPos + 1) % pipeSize
  writePos := pipe.writePos
  count := pipe.count - 1
  readPos_lt := mod_lt _ (by decide)
  count_le := le_trans (sub_le ..) pipe.count_le
  writePos_eq := by
    rw [pipe.writePos_eq, Nat.mod_add_mod]
    congr 1
    omega

/-- The bytes from the read position on. -/
def contents (pipe : Pipe) : List (BitVec 8) :=
  (List.range pipe.count).map fun i => pipe.data ((pipe.readPos + i) % pipeSize)

theorem contents_put (pipe : Pipe) (b : BitVec 8) (h : pipe.count ≠ pipeSize) :
    (pipe.put b h).contents = pipe.contents ++ [b] := by
  have hle := pipe.count_le
  have hold : ∀ i ∈ List.range pipe.count, (pipe.put b h).data ((pipe.readPos + i) % pipeSize) =
        pipe.data ((pipe.readPos + i) % pipeSize) := by
    intro i hi
    apply update_of_ne
    -- the byte goes behind the contents, and there is room for it
    rw [pipe.writePos_eq]
    rw [mem_range] at hi
    unfold pipeSize at *
    omega
  have hnew : (pipe.put b h).data ((pipe.readPos + pipe.count) % pipeSize) = b := by
    rw [← pipe.writePos_eq]
    exact update_self ..
  calc (pipe.put b h).contents
      = (List.range (pipe.count + 1)).map fun i =>
          (pipe.put b h).data ((pipe.readPos + i) % pipeSize) := rfl
    _ = pipe.contents ++ [b] := by
      rw [range_succ, map_append, map_congr_left hold, map_singleton, hnew]
      rfl

theorem contents_drop (pipe : Pipe) (h : pipe.count ≠ 0) :
    pipe.contents = pipe.data pipe.readPos :: (pipe.drop h).contents := by
  obtain ⟨n, hn⟩ := exists_eq_succ_of_ne_zero h
  unfold contents
  rw [hn, range_succ_eq_map, map_cons, Nat.add_zero, Nat.mod_eq_of_lt pipe.readPos_lt, map_map]
  simp only [drop, hn, succ_sub_one, Nat.mod_add_mod]
  congr 2
  funext i
  simp only [comp_apply, succ_eq_add_one]
  congr 2
  omega

/-! ## The calls -/

/-- The loop of `fs_cmd_write`; `n` bytes are in the ring. -/
def writeLoop (nonblock : Bool) (pipe : Pipe) (n : ℕ) : List (BitVec 8) → Pipe × Int
  | [] => (pipe, n)
  | b :: rest =>
    if h : pipe.count = pipeSize then (pipe, if nonblock = true ∧ n = 0 then -2 else n)
    else writeLoop nonblock (pipe.put b h) (n + 1) rest

/-- `fs_cmd_write` on the write end of a pipe that has `readers` read ends. -/
def fsCmdWrite (readers : Int) (nonblock : Bool) (pipe : Pipe) (input : List (BitVec 8)) :
    Pipe × Int :=
  if readers ≤ 0 then (pipe, -1) else writeLoop nonblock pipe 0 input

/-- The loop of `fs_cmd_read`, which has `len` bytes to go; `out` are those it has. -/
def readLoop (writers : Int) (nonblock : Bool) (pipe : Pipe) (out : List (BitVec 8)) :
    ℕ → Pipe × List (BitVec 8) × Int
  | 0 => (pipe, out, out.length)
  | len + 1 =>
    if h : pipe.count = 0 then
      (pipe, out, if writers ≠ 0 ∧ nonblock = true ∧ out = [] then -2 else out.length)
    else readLoop writers nonblock (pipe.drop h) (out ++ [pipe.data pipe.readPos]) len

/-- `fs_cmd_read` on the read end of a pipe that has `writers` write ends. -/
def fsCmdRead (writers : Int) (nonblock : Bool) (pipe : Pipe) (len : ℕ) :
    Pipe × List (BitVec 8) × Int :=
  readLoop writers nonblock pipe [] len

theorem writeLoop_spec (nonblock : Bool) (pipe : Pipe) (n : ℕ) (input : List (BitVec 8)) :
    let r := writeLoop nonblock pipe n input
    n ≤ r.2.toNat ∧ r.1.contents = pipe.contents ++ input.take (r.2.toNat - n) ∧
      (r.2 < n + input.length → r.1.count = pipeSize) := by
  induction input generalizing pipe n with
  | nil => simp [writeLoop]
  | cons b rest ih =>
    unfold writeLoop
    split
    next hfull =>
      refine ⟨?_, ?_, fun _ => hfull⟩ <;> split <;> simp_all
    next hroom =>
      obtain ⟨hn, hcontents, hshort⟩ := ih (pipe.put b hroom) (n + 1)
      refine ⟨by omega, ?_, fun h => hshort ?_⟩
      · obtain ⟨k, hk⟩ := Nat.exists_eq_add_of_le hn
        rw [hcontents, contents_put, hk, Nat.add_sub_cancel_left, Nat.add_assoc,
          Nat.add_sub_cancel_left, Nat.add_comm 1 k, take_succ_cons, append_assoc]
        rfl
      · rw [length_cons] at h
        omega

theorem readLoop_spec (writers : Int) (nonblock : Bool) (pipe : Pipe) (out : List (BitVec 8))
    (len : ℕ) :
    let r := readLoop writers nonblock pipe out len
    out ++ pipe.contents = r.2.1 ++ r.1.contents ∧ r.2.2.toNat = r.2.1.length ∧
      (r.2.2 < out.length + len → r.1.count = 0) := by
  induction len generalizing pipe out with
  | zero => simp [readLoop]
  | succ len ih =>
    unfold readLoop
    split
    next hempty =>
      refine ⟨rfl, ?_, fun _ => hempty⟩
      split <;> simp_all
    next hsome =>
      obtain ⟨hbytes, hret, hshort⟩ := ih (pipe.drop hsome) (out ++ [pipe.data pipe.readPos])
      refine ⟨?_, hret, fun h => hshort ?_⟩
      · rw [contents_drop pipe hsome, ← hbytes, append_assoc, singleton_append]
      · rw [length_append, length_singleton]
        omega

/-! ## Whole runs -/

/-- A call under the lock of the pipe. -/
inductive Call
  | write (readers : Int) (nonblock : Bool) (input : List (BitVec 8))
  | read (writers : Int) (nonblock : Bool) (len : ℕ)

/-- A pipe, what the writes on it report as written, and what the reads return. -/
structure Traffic where
  pipe : Pipe
  written : List (BitVec 8)
  returned : List (BitVec 8)

open Traffic

def Traffic.call (t : Traffic) : Call → Traffic
  | .write readers nonblock input =>
    let r := fsCmdWrite readers nonblock t.pipe input
    ⟨r.1, t.written ++ input.take r.2.toNat, t.returned⟩
  | .read writers nonblock len =>
    let r := fsCmdRead writers nonblock t.pipe len
    ⟨r.1, t.written, t.returned ++ r.2.1.take r.2.2.toNat⟩

theorem fsCmdWrite_contents (readers : Int) (nonblock : Bool) (pipe : Pipe)
    (input : List (BitVec 8)) :
    let r := fsCmdWrite readers nonblock pipe input
    r.1.contents = pipe.contents ++ input.take r.2.toNat := by
  unfold fsCmdWrite
  split
  next => simp
  next => exact (writeLoop_spec nonblock pipe 0 input).2.1

theorem call_conserves {t : Traffic} (h : t.written = t.returned ++ t.pipe.contents) (c : Call) :
    (t.call c).written = (t.call c).returned ++ (t.call c).pipe.contents := by
  cases c with
  | write =>
    simp only [call, fsCmdWrite_contents, h, append_assoc]
  | read writers nonblock len =>
    obtain ⟨hbytes, hret, -⟩ := readLoop_spec writers nonblock t.pipe [] len
    simp only [call, fsCmdRead, hret, take_length, append_assoc, ← hbytes, h, nil_append]

theorem run_conserves (calls : List Call) {t : Traffic}
    (h : t.written = t.returned ++ t.pipe.contents) :
    (calls.foldl call t).written =
      (calls.foldl call t).returned ++ (calls.foldl call t).pipe.contents := by
  induction calls generalizing t with
  | nil => exact h
  | cons c rest ih => exact ih (call_conserves h c)

end Pipe

end BoredOS.Sys
