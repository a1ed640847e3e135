import Mathlib

/-!
# Reading a Directory

`getdents64` keeps a position in the open file and asks `vfs_list_directory` for at most 64 entries
from there on. A driver skips as many entries as the offset says, but the mount points below the
directory and the names `dev`, `sys` and `proc` of the root are only appended to a list from
offset 0. They count for the position, and no later call gives them again.

A run of calls returns what the first call could put into the buffer and then the entries of the
driver behind it (`exists_enumerate`), and `enumeration_complete_iff` says when that is the whole
directory.
-/

namespace BoredOS.Sys.Getdents

open List Option Int

/-! ## The listing of a directory -/

def vfsMaxName : ℕ := 256

/-- `vfs_dirent_t`, as far as `getdents64` uses it. -/
structure Dirent where
  name : List Char
  isDirectory : Bool
  deriving DecidableEq

open Dirent

/-- A directory: its normalized path, the entries of its driver in the order in which the driver
finds them, and the paths of the active mounts. For `/dev` the entries are those of
`vfs_dev_list_entries`. -/
structure Directory where
  path : List Char
  entries : List Dirent
  mounts : List (List Char)
  distinct : (entries.map name).Nodup
  short : ∀ e ∈ entries, e.name.length < vfsMaxName

/-- The loop of the `readdir` functions of the drivers: `idx` counts the entries, and those from
`offset` on are copied. -/
def readdirLoop (max : ℕ) (offset : ℤ) : List Dirent → ℕ → List Dirent → List Dirent
  | [], _, out => out
  | e :: es, idx, out =>
    if out.length < max then
      readdirLoop max offset es (idx + 1) (if offset ≤ idx then out ++ [e] else out)
    else out

def vfsPathIsParent (parent child : List Char) : Bool :=
  child.take parent.length == parent &&
    match child.drop parent.length with
    | [] => true
    | c :: _ => c == '/' || parent == ['/']

/-- The name under which a mount is listed. -/
def mountName (path mount : List Char) : Option (List Char) :=
  if mount = path then none
  else if vfsPathIsParent path mount = true then
    let sub := mount.drop path.length
    let sub := if sub.head? = some '/' then sub.tail else sub
    if sub ≠ [] then some ((sub.takeWhile (· != '/')).take (vfsMaxName - 1)) else none
  else none

/-- A name is appended if it is not there and there is room. -/
def addName (max : ℕ) (entries : List Dirent) (name : List Char) : List Dirent :=
  if name ∈ entries.map Dirent.name then entries
  else if entries.length < max then entries ++ [⟨name, true⟩] else entries

def virtualDirs : List (List Char) := [['d', 'e', 'v'], ['s', 'y', 's'], ['p', 'r', 'o', 'c']]

/-- The names that are appended to the list of a directory: mounts, then virtual directories. -/
def extraNames (path : List Char) (mounts : List (List Char)) : List (List Char) :=
  mounts.filterMap (mountName path) ++ if path = ['/'] then virtualDirs else []

/-- `vfs_list_directory`. The offset is a position in the list of devices in the first case. -/
def vfsListDirectory (d : Directory) (max : ℕ) (offset : ℤ) : List Dirent :=
  if d.path = ['/', 'd', 'e', 'v'] then (d.entries.drop offset.toNat).take max
  else
    let entries := readdirLoop max offset d.entries 0 []
    if offset = 0 then (extraNames d.path d.mounts).foldl (addName max) entries else entries

/-- What `vfs_list_directory` attributes to the directory: its list with room for all. -/
def attributed (d : Directory) : List Dirent :=
  vfsListDirectory d (d.entries.length + (extraNames d.path d.mounts).length) 0

/-! ## The call -/

/-- `struct linux_dirent64`. -/
structure LinuxDirent64 where
  ino : ℕ
  off : ℕ
  reclen : ℕ
  type : ℕ
  name : List Char
  deriving DecidableEq

/-- The size of a record: 24 bytes, the name and its NUL, rounded up to 8. -/
def reclen (e : Dirent) : ℕ := (24 + e.name.length + 1 + 7) / 8 * 8

/-- The value of `(int)position`. -/
def toInt (position : ℕ) : ℤ := (position : ℤ).bmod (2 ^ 32)

/-- The loop of `handle_sys_getdents64`, up to the first entry without room. -/
def fillLoop (count : ℕ) : List Dirent → ℕ → ℕ → List LinuxDirent64
  | [], _, _ => []
  | e :: es, position, bytesWritten =>
    if count < bytesWritten + reclen e then []
    else
      ⟨position + 1, position + 1, reclen e, if e.isDirectory = true then 4 else 8, e.name⟩ ::
        fillLoop count es (position + 1) (bytesWritten + reclen e)

/-- What a descriptor is, with the position of an open directory. -/
inductive Descriptor where
  | closed
  | notFile
  | file (dir : Option Directory) (position : ℕ)

/-- The result, the records in the buffer, and the descriptor after the call. -/
structure Reply where
  ret : ℤ
  records : List LinuxDirent64
  fd : Descriptor

/-- `handle_sys_getdents64`; `valid` tells whether the buffer is one of the program. -/
def handleSysGetdents64 (valid : Bool) (count : ℕ) (fd : Descriptor) : Reply :=
  if count = 0 ∨ valid = false then ⟨-14, [], fd⟩
  else match fd with
    | .closed => ⟨-9, [], fd⟩
    | .notFile => ⟨-20, [], fd⟩
    | .file none _ => ⟨-20, [], fd⟩
    | .file (some d) position =>
      match vfsListDirectory d 64 (toInt position) with
      | [] => ⟨0, [], fd⟩
      | e :: es =>
        match fillLoop count (e :: es) position 0 with
        | [] => ⟨-22, [], fd⟩
        | records =>
          ⟨(records.map LinuxDirent64.reclen).sum, records,
            .file (some d) (position + records.length)⟩

/-- Calls with the given buffer sizes until one returns 0; an error ends it without a result. -/
def enumerate (sizes : ℕ → ℕ) : ℕ → ℕ → Descriptor → Option (List LinuxDirent64)
  | 0, _, _ => none
  | fuel + 1, i, fd =>
    let reply := handleSysGetdents64 true (sizes i) fd
    if reply.ret = 0 then some []
    else if reply.ret < 0 then none
    else (enumerate sizes fuel (i + 1) reply.fd).map (reply.records ++ ·)

/-- Every buffer has room for any one record of the directory. -/
def Roomy (d : Directory) (sizes : ℕ → ℕ) : Prop :=
  ∀ i, 0 < sizes i ∧ ∀ e ∈ attributed d, reclen e ≤ sizes i

/-- The calls come to an end and return every name of the directory once, and no other. -/
def Complete (d : Directory) (sizes : ℕ → ℕ) : Prop :=
  ∃ fuel out, enumerate sizes fuel 0 (.file (some d) 0) = some out ∧
    ∀ name, (out.map LinuxDirent64.name).count name =
      if name ∈ (attributed d).map Dirent.name then 1 else 0

/-! ## What a list has -/

theorem readdirLoop_eq (max : ℕ) (offset : ℤ) (es out : List Dirent) (idx : ℕ) :
    readdirLoop max offset es idx out =
      out ++ (es.drop (offset - idx).toNat).take (max - out.length) := by
  induction es generalizing idx out with
  | nil => simp [readdirLoop]
  | cons e es ih =>
    rw [readdirLoop]
    by_cases hmax : out.length < max
    · rw [if_pos hmax, ih]
      by_cases hidx : offset ≤ idx
      · -- the entry is copied
        obtain ⟨n, hn⟩ : ∃ n, max - out.length = n + 1 := ⟨max - out.length - 1, by omega⟩
        have hnow : (offset - idx).toNat = 0 := by omega
        have hnext : (offset - (idx + 1 : ℕ)).toNat = 0 := by omega
        have hroom : max - (out ++ [e]).length = n := by simp; omega
        rw [if_pos hidx, hnow, hnext, hroom, hn]
        simp
      · obtain ⟨n, hn⟩ : ∃ n, (offset - idx).toNat = n + 1 :=
          ⟨(offset - idx).toNat - 1, by omega⟩
        have hnext : (offset - (idx + 1 : ℕ)).toNat = n := by omega
        rw [if_neg hidx, hnext, hn]
        simp
    · have hzero : max - out.length = 0 := by omega
      rw [if_neg hmax, hzero]
      simp

section

variable {max big : ℕ} {es : List Dirent} {names : List (List Char)} {name : List Char}

theorem addName_of_mem (h : name ∈ es.map Dirent.name) :
    addName max es name = es := if_pos h

theorem addName_of_room (h : name ∉ es.map Dirent.name)
    (hroom : es.length < max) : addName max es name = es ++ [⟨name, true⟩] := by
  rw [addName, if_neg h, if_pos hroom]

theorem addName_of_full (hfull : max ≤ es.length) : addName max es name = es := by
  unfold addName
  rw [if_neg (Nat.not_lt.2 hfull)]
  split <;> rfl

theorem exists_foldl_addName (max : ℕ) (es : List Dirent) (names : List (List Char)) :
    ∃ ext, names.foldl (addName max) es = es ++ ext := by
  induction names generalizing es with
  | nil => exact ⟨[], by simp⟩
  | cons name names ih =>
    obtain ⟨ext, hext⟩ := ih (addName max es name)
    rw [foldl_cons, hext]
    by_cases hmem : name ∈ es.map Dirent.name
    · exact ⟨ext, by rw [addName_of_mem hmem]⟩
    · by_cases hroom : es.length < max
      · exact ⟨_, by rw [addName_of_room hmem hroom, append_assoc]⟩
      · exact ⟨ext, by rw [addName_of_full (Nat.not_lt.1 hroom)]⟩

/-- A list that is too short has the first names of one with room for all. -/
theorem foldl_addName_take (hmax : es.length ≤ max) (hbig : es.length + names.length ≤ big) :
    names.foldl (addName max) es = (names.foldl (addName big) es).take max := by
  induction names generalizing es with
  | nil => simp [take_of_length_le hmax]
  | cons name names ih =>
    rw [length_cons] at hbig
    rw [foldl_cons, foldl_cons]
    by_cases hmem : name ∈ es.map Dirent.name
    · rw [addName_of_mem hmem, addName_of_mem hmem]
      exact ih hmax (by omega)
    · rw [@addName_of_room big es name hmem (by omega)]
      by_cases hroom : es.length < max
      · rw [addName_of_room hmem hroom]
        exact ih (by simp; omega) (by simp; omega)
      · -- the list is full, and what is appended elsewhere stands behind it
        have hfull : max = es.length := by omega
        rw [addName_of_full (by omega), ih hmax (by omega), hfull]
        obtain ⟨ext, hext⟩ := exists_foldl_addName big es names
        obtain ⟨ext', hext'⟩ := exists_foldl_addName big (es ++ [⟨name, true⟩]) names
        rw [hext, hext', append_assoc, take_left', take_left'] <;> rfl

theorem nodup_foldl_addName (h : (es.map Dirent.name).Nodup) :
    ((names.foldl (addName max) es).map Dirent.name).Nodup := by
  induction names generalizing es with
  | nil => exact h
  | cons name names ih =>
    refine ih ?_
    by_cases hmem : name ∈ es.map Dirent.name
    · rwa [addName_of_mem hmem]
    · by_cases hroom : es.length < max
      · rw [addName_of_room hmem hroom, map_append]
        exact List.Nodup.append h (nodup_singleton _) (by simpa using hmem)
      · rwa [addName_of_full (Nat.not_lt.1 hroom)]

end

section

variable {d : Directory}

theorem attributed_of_dev (h : d.path = ['/', 'd', 'e', 'v']) : attributed d = d.entries := by
  rw [attributed, vfsListDirectory, if_pos h, toNat_zero, drop_zero]
  exact take_of_length_le (Nat.le_add_right _ _)

theorem attributed_of_ne (h : d.path ≠ ['/', 'd', 'e', 'v']) :
    attributed d = (extraNames d.path d.mounts).foldl
      (addName (d.entries.length + (extraNames d.path d.mounts).length)) d.entries := by
  have hall : readdirLoop (d.entries.length + (extraNames d.path d.mounts).length) 0 d.entries 0
      [] = d.entries := by
    rw [readdirLoop_eq]
    exact take_of_length_le (by simp)
  rw [attributed, vfsListDirectory, if_neg h, if_pos rfl, hall]

variable (d : Directory)

/-- The entries of the driver come first. -/
theorem exists_attributed : ∃ ext, attributed d = d.entries ++ ext := by
  by_cases hdev : d.path = ['/', 'd', 'e', 'v']
  · exact ⟨[], by rw [attributed_of_dev hdev, append_nil]⟩
  · rw [attributed_of_ne hdev]
    exact exists_foldl_addName _ _ _

theorem nodup_attributed : ((attributed d).map Dirent.name).Nodup := by
  by_cases hdev : d.path = ['/', 'd', 'e', 'v']
  · rw [attributed_of_dev hdev]
    exact d.distinct
  · rw [attributed_of_ne hdev]
    exact nodup_foldl_addName d.distinct

/-- The list from the start has the first names of the directory. -/
theorem vfsListDirectory_zero (max : ℕ) : vfsListDirectory d max 0 = (attributed d).take max := by
  by_cases hdev : d.path = ['/', 'd', 'e', 'v']
  · rw [attributed_of_dev hdev, vfsListDirectory, if_pos hdev]
    rfl
  · have hloop : readdirLoop max 0 d.entries 0 [] = d.entries.take max := by
      rw [readdirLoop_eq]
      rfl
    rw [vfsListDirectory, if_neg hdev, if_pos rfl, hloop]
    by_cases hlen : d.entries.length ≤ max
    · rw [take_of_length_le hlen, attributed_of_ne hdev]
      exact foldl_addName_take hlen (Nat.le_refl _)
    · -- the driver alone fills the list
      have hfull : (d.entries.take max).length = max := length_take_of_le (by omega)
      obtain ⟨ext, hext⟩ := exists_attributed d
      rw [hext, take_append_of_le_length (by omega), foldl_addName_take (by omega) (Nat.le_refl _)]
      obtain ⟨ext', hext'⟩ := exists_foldl_addName
        ((d.entries.take max).length + (extraNames d.path d.mounts).length) (d.entries.take max)
        (extraNames d.path d.mounts)
      rw [hext', take_append_of_le_length (by omega), take_take, Nat.min_self]

/-- Any other list has the entries of the driver only. -/
theorem vfsListDirectory_pos (max : ℕ) {offset : ℤ} (h : offset ≠ 0) :
    vfsListDirectory d max offset = (d.entries.drop offset.toNat).take max := by
  by_cases hdev : d.path = ['/', 'd', 'e', 'v']
  · rw [vfsListDirectory, if_pos hdev]
  · rw [vfsListDirectory, if_neg hdev, if_neg h, readdirLoop_eq]
    simp

end

/-! ## What a call puts into the buffer -/

section

variable {count : ℕ} {es : List Dirent} (es : List Dirent) (position bytes : ℕ)

theorem map_name_fillLoop :
    (fillLoop count es position bytes).map LinuxDirent64.name =
      (es.take (fillLoop count es position bytes).length).map name := by
  induction es generalizing position bytes with
  | nil => simp [fillLoop]
  | cons e es ih =>
    rw [fillLoop]
    split
    · simp
    · simp [ih]

theorem length_fillLoop_le : (fillLoop count es position bytes).length ≤ es.length := by
  induction es generalizing position bytes with
  | nil => simp [fillLoop]
  | cons e es ih =>
    rw [fillLoop]
    split
    · simp
    · simpa using ih _ _

/-- All entries are put into the buffer exactly if there is room for all. -/
theorem length_fillLoop_eq_iff :
    (fillLoop count es position bytes).length = es.length ↔
      es = [] ∨ bytes + (es.map reclen).sum ≤ count := by
  induction es generalizing position bytes with
  | nil => simp [fillLoop]
  | cons e es ih =>
    rw [fillLoop, map_cons, sum_cons]
    split
    next hroom =>
      simp
      omega
    next hroom =>
      simp only [length_cons, Nat.add_right_cancel_iff, ih, reduceCtorEq, false_or]
      constructor
      · rintro (rfl | h)
        · simp
          omega
        · omega
      · intro h
        right
        omega

end

/-! ## A run of calls -/

section

variable {d : Directory} {sizes : ℕ → ℕ} {fuel i position : ℕ}

theorem toInt_of_lt (h : position < 2 ^ 31) : toInt position = position := by
  exact bmod_eq_of_le (by omega) (by omega)

theorem enumerate_eof (hsize : 0 < sizes i) (hlist : vfsListDirectory d 64 (toInt position) = []) :
    enumerate sizes (fuel + 1) i (.file (some d) position) = some [] := by
  have hcall : handleSysGetdents64 true (sizes i) (.file (some d) position) =
      ⟨0, [], .file (some d) position⟩ := by
    rw [handleSysGetdents64, if_neg (by simp; omega)]
    simp only [hlist]
  rw [enumerate, hcall]
  rfl

/-- A call with room for the first entry returns at least that, and moves the position on. -/
theorem enumerate_records {e : Dirent} {es : List Dirent} (hroom : reclen e ≤ sizes i)
    (hlist : vfsListDirectory d 64 (toInt position) = e :: es) :
    0 < (fillLoop (sizes i) (e :: es) position 0).length ∧
      enumerate sizes (fuel + 1) i (.file (some d) position) =
        (enumerate sizes fuel (i + 1) (.file (some d)
          (position + (fillLoop (sizes i) (e :: es) position 0).length))).map
            (fillLoop (sizes i) (e :: es) position 0 ++ ·) := by
  have hpos : 24 ≤ reclen e := by
    unfold reclen
    omega
  obtain ⟨r, rs, hfill, hr⟩ : ∃ r rs, fillLoop (sizes i) (e :: es) position 0 = r :: rs ∧
      r.reclen = reclen e := by
    rw [fillLoop, if_neg (by omega)]
    exact ⟨_, _, rfl, rfl⟩
  have hcall : handleSysGetdents64 true (sizes i) (.file (some d) position) =
      ⟨((r :: rs).map LinuxDirent64.reclen).sum, r :: rs,
        .file (some d) (position + (r :: rs).length)⟩ := by
    rw [handleSysGetdents64, if_neg (by simp; omega)]
    simp only [hlist, hfill]
  have hret : (0 : ℤ) < ((r :: rs).map LinuxDirent64.reclen).sum := by
    simp only [map_cons, sum_cons, hr]
    omega
  rw [hfill, enumerate, hcall]
  refine ⟨by simp, ?_⟩
  dsimp only
  rw [if_neg (by omega), if_neg (by omega)]

/-- One call at a position from which the directory goes on with `xs`: it returns the first `k` of
them, and the run goes on behind them. -/
theorem enumerate_step {xs : List Dirent} (hroom : ∀ e ∈ xs, reclen e ≤ sizes i) (hne : xs ≠ [])
    (hlist : vfsListDirectory d 64 (toInt position) = xs.take 64) :
    ∃ k records, k = (fillLoop (sizes i) (xs.take 64) position 0).length ∧ 0 < k ∧
      k ≤ xs.length ∧ records.map LinuxDirent64.name = (xs.take k).map name ∧
      ∀ fuel, enumerate sizes (fuel + 1) i (.file (some d) position) =
        (enumerate sizes fuel (i + 1) (.file (some d) (position + k))).map (records ++ ·) := by
  obtain ⟨e, es, rfl⟩ := exists_cons_of_ne_nil hne
  have hcons : (e :: es).take 64 = e :: es.take 63 := take_succ_cons
  have hlen : (fillLoop (sizes i) ((e :: es).take 64) position 0).length ≤
      ((e :: es).take 64).length := length_fillLoop_le _ _ _
  have hstep := fun fuel =>
    @enumerate_records d sizes fuel i position e (es.take 63) (hroom e (by simp)) hlist
  rw [length_take] at hlen
  refine ⟨_, fillLoop (sizes i) ((e :: es).take 64) position 0, rfl, ?_, by omega, ?_,
    fun fuel => ?_⟩
  · rw [hcons]
    exact (hstep 0).1
  · rw [map_name_fillLoop, take_take, Nat.min_eq_left (by omega)]
  · rw [hcons]
    exact (hstep fuel).2

/-- Behind the start, the calls return the entries of the driver from the position on. -/
theorem exists_enumerate_pos (hroomy : Roomy d sizes) (hlen : d.entries.length < 2 ^ 31)
    (hpos : 0 < position) (hlt : position < 2 ^ 31) :
    ∃ fuel out, enumerate sizes fuel i (.file (some d) position) = some out ∧
      out.map LinuxDirent64.name = (d.entries.drop position).map name := by
  -- the induction is on the number of entries behind the position
  induction hleft : d.entries.length - position using Nat.strongRecOn generalizing i position with
  | _ left ih =>
    have hlist : vfsListDirectory d 64 (toInt position) = (d.entries.drop position).take 64 := by
      rw [toInt_of_lt hlt, vfsListDirectory_pos d 64 (by omega), toNat_natCast]
    by_cases hnil : d.entries.drop position = []
    · rw [hnil] at hlist ⊢
      exact ⟨1, [], enumerate_eof (hroomy i).1 hlist, rfl⟩
    · obtain ⟨ext, hext⟩ := exists_attributed d
      have hroom : ∀ e ∈ d.entries.drop position, reclen e ≤ sizes i := fun e he =>
        (hroomy i).2 e (hext ▸ mem_append_left _ (mem_of_mem_drop he))
      obtain ⟨k, records, -, hk, hle, hnames, hstep⟩ := enumerate_step hroom hnil hlist
      rw [length_drop] at hle
      obtain ⟨fuel, out, hout, hrest⟩ := @ih (d.entries.length - (position + k)) (by omega)
        (i + 1) (position + k) (by omega) (by omega) rfl
      refine ⟨fuel + 1, records ++ out, by rw [hstep, hout]; rfl, ?_⟩
      rw [map_append, hnames, hrest, ← map_append, ← drop_drop, take_append_drop]

/-- All calls together return what the first call puts into the buffer and the entries of the driver
behind it. -/
theorem exists_enumerate (hroomy : Roomy d sizes) (hlen : (attributed d).length < 2 ^ 31) :
    ∃ fuel out, enumerate sizes fuel 0 (.file (some d) 0) = some out ∧ out.map LinuxDirent64.name =
        ((attributed d).take (fillLoop (sizes 0) ((attributed d).take 64) 0 0).length ++
          d.entries.drop (fillLoop (sizes 0) ((attributed d).take 64) 0 0).length).map
            name := by
  have hlist : vfsListDirectory d 64 (toInt 0) = (attributed d).take 64 :=
    vfsListDirectory_zero d 64
  obtain ⟨ext, hext⟩ := exists_attributed d
  by_cases hnil : attributed d = []
  · rw [hnil] at hlist hext ⊢
    obtain ⟨hentries, -⟩ := append_eq_nil_iff.1 hext.symm
    refine ⟨1, [], enumerate_eof (hroomy 0).1 hlist, ?_⟩
    simp [hentries]
  · obtain ⟨k, records, hk, hpos, hle, hnames, hstep⟩ := enumerate_step (hroomy 0).2 hnil hlist
    have hentries : d.entries.length ≤ (attributed d).length := by
      rw [hext, length_append]
      omega
    obtain ⟨fuel, out, hout, hrest⟩ := @exists_enumerate_pos d sizes 1 k hroomy (by omega) hpos
      (by omega)
    rw [← hk]
    refine ⟨fuel + 1, records ++ out, ?_, ?_⟩
    · rw [hstep, Nat.zero_add, Nat.zero_add, hout]
      rfl
    · rw [map_append, hnames, hrest, ← map_append]

/-- More fuel does not change the result. -/
theorem enumerate_unique {fuel' i : ℕ} {fd : Descriptor} {out out' : List LinuxDirent64}
    (h : enumerate sizes fuel i fd = some out) (h' : enumerate sizes fuel' i fd = some out') :
    out' = out := by
  induction fuel generalizing fuel' i fd out out' with
  | zero => cases h
  | succ fuel ih =>
    cases fuel' with
    | zero => cases h'
    | succ =>
      rw [enumerate] at h h'
      split at h
      · rw [if_pos ‹_›] at h'
        exact some.inj (h'.symm.trans h)
      · rw [if_neg ‹_›] at h'
        split at h
        · cases h
        · rw [if_neg ‹_›] at h'
          obtain ⟨rest, hrest, rfl⟩ := map_eq_some_iff.1 h
          obtain ⟨rest', hrest', rfl⟩ := map_eq_some_iff.1 h'
          rw [ih hrest hrest']

end

/-- The first call leaves no room for some of the names that are only on the first list, unless all
of the directory fits into it. -/
theorem length_first_iff (d : Directory) (count : ℕ) :
    (attributed d).length ≤ (fillLoop count ((attributed d).take 64) 0 0).length ↔
      attributed d = [] ∨ (attributed d).length ≤ 64 ∧ ((attributed d).map reclen).sum ≤ count := by
  have hle := @length_fillLoop_le count ((attributed d).take 64) 0 0
  rw [length_take] at hle
  by_cases hlen : (attributed d).length ≤ 64
  · rw [take_of_length_le hlen] at hle ⊢
    have hiff := @length_fillLoop_eq_iff count (attributed d) 0 0
    rw [Nat.zero_add] at hiff
    simp only [hlen, true_and, ← hiff]
    omega
  · have hne : attributed d ≠ [] := by
      rintro hnil
      simp [hnil] at hlen
    simp only [hne, hlen, false_and, or_false, iff_false]
    omega

/-- The calls return the whole directory exactly if it has no names but those of the driver, or all
of it fits into one list and the first buffer. -/
theorem enumeration_complete_iff (d : Directory) (sizes : ℕ → ℕ) (hroomy : Roomy d sizes)
    (hlen : (attributed d).length < 2 ^ 31) :
    Complete d sizes ↔ (attributed d).length = d.entries.length ∨
      (attributed d).length ≤ 64 ∧ ((attributed d).map reclen).sum ≤ sizes 0 := by
  obtain ⟨fuel, out, hrun, hnames⟩ := exists_enumerate hroomy hlen
  obtain ⟨ext, hext⟩ := exists_attributed d
  have hfirst := length_first_iff d (sizes 0)
  generalize (fillLoop (sizes 0) ((attributed d).take 64) 0 0).length = k at hnames hfirst
  have hnodup := nodup_attributed d
  have hcount : ∀ name, ((attributed d).map Dirent.name).count name =
      if name ∈ (attributed d).map Dirent.name then 1 else 0 := by
    intro name
    exact List.Nodup.count hnodup
  -- what is returned is the directory up to some of the names that the driver does not have
  have hout : (attributed d).take k ++ d.entries.drop k =
      d.entries ++ ext.take (k - d.entries.length) := by
    rw [hext, take_append]
    by_cases hk : k ≤ d.entries.length
    · have hzero : k - d.entries.length = 0 := by omega
      simp [hzero]
    · rw [take_of_length_le (by omega), drop_eq_nil_of_le (by omega)]
      simp
  have hcomplete : Complete d sizes ↔ ext.length ≤ k - d.entries.length := by
    constructor
    · rintro ⟨fuel', out', hrun', hcounts⟩
      obtain rfl := enumerate_unique hrun hrun'
      have hperm : (out'.map LinuxDirent64.name).Perm ((attributed d).map name) :=
        perm_iff_count.2 fun name => (hcounts name).trans (hcount name).symm
      have hlength := hperm.length_eq
      rw [hnames, hout, hext] at hlength
      simp only [length_map, length_append, length_take] at hlength
      omega
    · intro hle
      refine ⟨fuel, out, hrun, fun name => ?_⟩
      rw [hnames, hout, take_of_length_le hle, ← hext]
      exact hcount name
  rw [hcomplete]
  have hsum : (attributed d).length = d.entries.length + ext.length := by
    rw [hext, length_append]
  constructor
  · intro hle
    by_cases hextra : ext.length = 0
    · left
      omega
    · obtain hnil | hfits := hfirst.1 (by omega)
      · left
        simp [hnil] at hsum
        omega
      · exact .inr hfits
  · rintro (heq | hfits)
    · omega
    · have := hfirst.2 (.inr hfits)
      omega

/-! ## The root directory -/

/-- A root directory with two entries, and no mount but its own. -/
def root : Directory where
  path := ['/']
  entries := [⟨['b', 'i', 'n'], true⟩, ⟨['e', 't', 'c'], true⟩]
  mounts := [['/']]
  distinct := by decide
  short := by decide

theorem roomy_root {n : ℕ} (h : 0 < n ∧ ∀ e ∈ attributed root, reclen e ≤ n) :
    Roomy root fun _ => n := fun _ => h

/-- With room for all records of the root, one call returns them. -/
theorem enumeration_complete_iff_root : Complete root fun _ => 1024 :=
  (enumeration_complete_iff root (fun _ => 1024) (roomy_root (by decide)) (by decide)).2
    (.inr (by decide))

/-- With room for two records, `dev`, `sys` and `proc` are not returned. -/
theorem root_incomplete : Roomy root (fun _ => 64) ∧
    ((attributed root).map Dirent.name).count ['d', 'e', 'v'] = 1 ∧
    (∃ out, enumerate (fun _ => 64) 2 0 (.file (some root) 0) = some out ∧
      out.map LinuxDirent64.name = [['b', 'i', 'n'], ['e', 't', 'c']]) ∧
    ¬ Complete root fun _ => 64 := by
  have hrun : enumerate (fun _ => 64) 2 0 (.file (some root) 0) =
      some [⟨1, 1, 32, 4, ['b', 'i', 'n']⟩, ⟨2, 2, 32, 4, ['e', 't', 'c']⟩] := by
    decide
  refine ⟨roomy_root (by decide), by decide, ⟨_, hrun, rfl⟩, ?_⟩
  rintro ⟨fuel, out, hrun', hcount⟩
  obtain rfl := enumerate_unique hrun hrun'
  exact absurd (hcount ['d', 'e', 'v']) (by decide)

end BoredOS.Sys.Getdents
