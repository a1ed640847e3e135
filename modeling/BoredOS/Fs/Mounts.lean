import BoredOS.Lib.Transition

/-!
# Mounts and Open Files

`vfs_mount` and `vfs_umount` of `fs/vfs_mount.c` with `vfs_open` and `vfs_close` of `fs/vfs.c`. An
open file points to a slot of the mount table and has a handle that the file system there made.

What a call finds in the file systems is part of the call, and so is the slot that
`vfs_resolve_mount` chooses, which is any active one; the last section is about that choice.
`origin` records the past: the operations and the `fs_private` that were in the slot when the handle
was made. A slot is not unmounted while a file points to it, but a second mount at its path replaces
the file system in place.
-/

namespace BoredOS.Fs.Mounts

open Lib.Transition Function List
open Option (some.inj)

/-- `ops` and `fs_private`. -/
structure Filesystem where
  ops : ℕ
  fsPrivate : ℕ

/-- An active `vfs_mount_t`. The path is cut to 255 bytes and `path_len` is that of the whole. -/
structure Mount where
  path : List Char
  pathLen : ℕ
  device : List Char
  fs : Filesystem

/-- `vfs_file_t` on the list of open files. -/
structure VfsFile where
  addr : ℕ
  isDevice : Bool
  mount : Option ℕ
  fsHandle : Option ℕ
  origin : Option Filesystem

structure VfsState where
  mounts : ℕ → Option Mount
  files : List VfsFile

def vfsMaxMounts : ℕ := 64

/-- The first slot with a property. -/
def findSlot (s : VfsState) (P : Option Mount → Bool) : Option ℕ :=
  (range vfsMaxMounts).find? fun i => P (s.mounts i)

def mountedAt (s : VfsState) (path : List Char) : Option ℕ :=
  findSlot s fun m => m.any fun m => m.path = path

/-- `vfs_mount` at a normalised path. -/
def vfsMount (s : VfsState) (path : List Char) (device : Option (List Char)) (fs : Filesystem) :
    VfsState × Bool :=
  match mountedAt s path with
  | some i =>
    ({ s with mounts := update s.mounts i ((s.mounts i).map fun m =>
        { m with fs, pathLen := path.length, device := (device.map (take 31)).getD m.device }) },
      true)
  | none =>
    match findSlot s Option.isNone with
    | none => (s, false)
    | some i =>
      let m : Mount := ⟨path.take 255, path.length, (device.map (take 31)).getD [], fs⟩
      ({ s with mounts := update s.mounts i (some m) }, true)

/-- `vfs_umount`; `devTarget` is the path without `/dev/`. -/
def vfsUmount (s : VfsState) (path devTarget : List Char) : VfsState × Bool :=
  match findSlot s fun m => m.any fun m =>
    m.path = path ∨ devTarget ≠ [] ∧ m.device ≠ [] ∧ m.device = devTarget with
  | none => (s, false)
  | some i =>
    if s.files.any fun f => f.mount = some i then (s, false)
    else ({ s with mounts := update s.mounts i none }, true)

/-- `vfs_open` of what is not a device: `slot` is the mount of the path, `fsHandle` what its `open`
returns, and `mem` tells whether the file finds memory, at `addr`. -/
def vfsOpen (mem isDir : Bool) (s : VfsState) (addr : ℕ) (slot fsHandle : Option ℕ) : VfsState :=
  let file : VfsFile := ⟨addr, false, slot, slot.bind fun _ => fsHandle,
    slot.bind fun i => (s.mounts i).map Mount.fs⟩
  if mem = false then s
  else if isDir = true ∨ slot.isSome ∧ fsHandle.isSome then { s with files := file :: s.files }
  else s

def vfsClose (s : VfsState) (addr : ℕ) : VfsState :=
  { s with files := s.files.filter fun f => f.addr ≠ addr }

inductive VfsCall where
  | mount (path : List Char) (device : Option (List Char)) (fs : Filesystem)
  | umount (path devTarget : List Char)
  | openPath (mem isDir : Bool) (addr : ℕ) (slot fsHandle : Option ℕ)
  | openDevice (addr : ℕ) (mount fsHandle : Option ℕ)
  | close (addr : ℕ)
  /-- `vfs_read` or `vfs_write` -/
  | transfer (addr : ℕ)

def vfsStep (s : VfsState) : VfsCall → Option VfsState
  | .mount path device fs => some (vfsMount s path device fs).1
  | .umount path devTarget => some (vfsUmount s path devTarget).1
  | .openPath mem isDir addr slot fsHandle =>
    if slot.all fun i => (s.mounts i).isSome then some (vfsOpen mem isDir s addr slot fsHandle)
    else none
  | .openDevice addr mount fsHandle =>
    some { s with files := ⟨addr, true, mount, fsHandle, none⟩ :: s.files }
  | .close addr => some (vfsClose s addr)
  | .transfer _ => some s

def vfsSystem : System VfsState VfsCall where
  init s := s = ⟨fun _ => none, []⟩
  step s e s' := vfsStep s e = some s'

/-- The slot of the file is active and has the file system that made the handle. -/
def FileOk (s : VfsState) (f : VfsFile) : Prop :=
  f.isDevice = false → f.fsHandle ≠ none →
    ∃ i m, f.mount = some i ∧ s.mounts i = some m ∧ f.origin = some m.fs

def FilesOk (s : VfsState) : Prop := ∀ f ∈ s.files, FileOk s f

/-- A mount in place keeps the file system of the handles of the slot. -/
def VfsSafe (s : VfsState) : VfsCall → Prop
  | .mount path _ fs => ∀ i, mountedAt s path = some i → ∀ f ∈ s.files, f.isDevice = false →
      f.fsHandle ≠ none → f.mount = some i → f.origin = some fs
  | _ => True

variable {s s' : VfsState} {e : VfsCall} {i : ℕ} {f : VfsFile}

theorem findSlot_some {P : Option Mount → Bool} (h : findSlot s P = some i) :
    P (s.mounts i) = true :=
  find?_some (p := fun i => P (s.mounts i)) h

/-- A slot that the file does not point to changes. -/
theorem FileOk.update (h : FileOk s f) {m : Option Mount}
    (hi : f.isDevice = false → f.fsHandle ≠ none → f.mount ≠ some i) :
    FileOk { s with mounts := update s.mounts i m } f := by
  intro hdev hhandle
  obtain ⟨j, x, hj, hx, horigin⟩ := h hdev hhandle
  refine ⟨j, x, hj, ?_, horigin⟩
  have hne : j ≠ i := by
    rintro rfl
    exact hi hdev hhandle hj
  exact (update_of_ne hne _ _).trans hx

/-- A mount keeps the files in order exactly if it is a safe one. -/
theorem filesOk_vfsMount (h : FilesOk s) (path : List Char) (device : Option (List Char))
    (fs : Filesystem) :
    FilesOk (vfsMount s path device fs).1 ↔ VfsSafe s (.mount path device fs) := by
  rw [vfsMount, VfsSafe]
  cases hat : mountedAt s path with
  | some i =>
    obtain ⟨m, hm⟩ : ∃ m, s.mounts i = some m := by
      have hany := findSlot_some hat
      cases hm : s.mounts i with
      | none => simp [hm] at hany
      | some m => exact ⟨m, rfl⟩
    simp only [Option.some.injEq, forall_eq', hm, Option.map_some]
    constructor
    · intro hok f hf hdev hhandle hi
      obtain ⟨j, x, hj, hx, horigin⟩ := hok f hf hdev hhandle
      obtain rfl := some.inj (hi.symm.trans hj)
      obtain rfl := some.inj ((update_self (f := s.mounts) _ _).symm.trans hx)
      exact horigin
    · intro hsafe f hf hdev hhandle
      by_cases hi : f.mount = some i
      · exact ⟨i, _, hi, update_self _ _ _, hsafe f hf hdev hhandle hi⟩
      · exact (h f hf).update (fun _ _ => hi) hdev hhandle
  | none =>
    refine iff_of_true ?_ (by simp)
    cases hfree : findSlot s Option.isNone with
    | none => exact h
    | some =>
      -- a file with a handle points to an active slot
      intro f hf
      refine (h f hf).update fun hdev hhandle hi => ?_
      obtain ⟨j, x, hj, hx, -⟩ := h f hf hdev hhandle
      obtain rfl := some.inj (hi.symm.trans hj)
      have hnone := findSlot_some hfree
      simp [hx] at hnone

theorem filesOk_vfsUmount (h : FilesOk s) (path devTarget : List Char) :
    FilesOk (vfsUmount s path devTarget).1 := by
  unfold vfsUmount
  split
  · exact h
  · split
    · exact h
    · rename_i hnone
      intro f hf
      refine (h f hf).update fun _ _ hi => hnone ?_
      exact any_eq_true.2 ⟨f, hf, by simpa using hi⟩

/-- A new handle comes from the file system that is in the slot. -/
theorem filesOk_vfsOpen (h : FilesOk s) (mem isDir : Bool) (addr : ℕ) {slot : Option ℕ}
    (hslot : (slot.all fun i => (s.mounts i).isSome) = true) (fsHandle : Option ℕ) :
    FilesOk (vfsOpen mem isDir s addr slot fsHandle) := by
  unfold vfsOpen
  dsimp only
  split
  · exact h
  · split
    · refine forall_mem_cons.2 ⟨fun _ hhandle => ?_, h⟩
      cases slot with
      | none => exact absurd rfl hhandle
      | some i =>
        obtain ⟨m, hm⟩ := Option.isSome_iff_exists.1 (by simpa using hslot : (s.mounts i).isSome)
        exact ⟨i, m, rfl, hm, by simp [hm]⟩
    · exact h

/-- One call from files in order: they stay in order exactly if the call is safe. -/
theorem filesOk_step (h : FilesOk s) (hstep : vfsStep s e = some s') :
    FilesOk s' ↔ VfsSafe s e := by
  cases e with
  | mount path device fs =>
    obtain rfl := some.inj hstep
    exact filesOk_vfsMount h path device fs
  | umount path devTarget =>
    obtain rfl := some.inj hstep
    exact iff_of_true (filesOk_vfsUmount h path devTarget) trivial
  | openPath mem isDir addr slot fsHandle =>
    obtain ⟨hslot, heq⟩ := Option.ite_none_right_eq_some.1 hstep
    obtain rfl := some.inj heq
    exact iff_of_true (filesOk_vfsOpen h mem isDir addr hslot fsHandle) trivial
  | openDevice =>
    obtain rfl := some.inj hstep
    exact iff_of_true (forall_mem_cons.2 ⟨(nomatch ·), h⟩) trivial
  | close =>
    obtain rfl := some.inj hstep
    exact iff_of_true (fun f hf => h f (mem_filter.1 hf).1) trivial
  | transfer =>
    obtain rfl := some.inj hstep
    exact iff_of_true h trivial

/-- As long as no mount replaces the file system under an open handle, every handle belongs to the
file system in the slot of its file; the first mount that does breaks this. -/
theorem files_of_safe_run (h : vfsSystem.Reachable VfsSafe s) :
    FilesOk s ∧ ∀ e s', vfsStep s e = some s' → (FilesOk s' ↔ VfsSafe s e) := by
  have hok : FilesOk s := by
    refine System.Reachable.invariant (I := FilesOk) ?_ ?_ h
    · rintro _ rfl f hf
      cases hf
    · exact fun s e s' hs hsafe hstep => (filesOk_step hs hstep).2 hsafe
  exact ⟨hok, fun e s' hstep => filesOk_step hok hstep⟩

/-- A file is open on the root, which is mounted again with the same file system. -/
theorem files_of_safe_run_remount : ∃ s, vfsSystem.Reachable VfsSafe s ∧
    s.files.map VfsFile.fsHandle = [some 7] ∧ FilesOk s := by
  have hmount : vfsSystem.Reachable VfsSafe _ := (System.Reachable.start rfl).next
    (e := .mount ['/'] none ⟨1, 0⟩) (by rintro _ _ _ ⟨⟩) rfl
  have hopen : vfsSystem.Reachable VfsSafe _ := hmount.next
    (e := .openPath true false 0 (some 0) (some 7)) (by exact trivial) rfl
  have hagain : vfsSystem.Reachable VfsSafe _ := hopen.next (e := .mount ['/'] none ⟨1, 0⟩)
    (fun _ _ f hf _ _ _ => by rw [mem_singleton.1 hf]; rfl) rfl
  exact ⟨_, hagain, rfl, (files_of_safe_run hagain).1⟩

/-- A file is open on the root when another file system is mounted there. -/
theorem handle_changes_filesystem : ∃ s, [.mount ['/'] none ⟨1, 0⟩,
      .openPath true false 0 (some 0) (some 7), .mount ['/'] none ⟨2, 0⟩].foldlM vfsStep
        ⟨fun _ => none, []⟩ = some s ∧ ¬ FilesOk s := by
  refine ⟨_, rfl, fun h => ?_⟩
  obtain ⟨i, m, hi, hm, horigin⟩ := h _ mem_cons_self rfl (Option.some_ne_none 7)
  cases hi
  cases hm
  cases horigin

/-! ## The mount of a path -/

/-- The test of `vfs_resolve_mount` for a mount at `root`. A path that ends before `len` is read
behind its end by the code and counts as ended here; this needs a root that was cut. -/
def covers (root : List Char) (len : ℕ) (path : List Char) : Bool :=
  path.take len = root.take len && ((path[len]?).all (· = '/') || len = 1)

/-- A slot that passes it, with `path_len`. -/
def candidate (s : VfsState) (path : List Char) (i : ℕ) : Option (ℕ × ℕ) :=
  (s.mounts i).bind fun m =>
    if covers m.path m.pathLen path = true then some (i, m.pathLen) else none

/-- The body of the loop, with `best_mount` and `best_len`. -/
def resolveSlot (s : VfsState) (path : List Char) (best : Option (ℕ × ℕ)) (i : ℕ) :
    Option (ℕ × ℕ) :=
  (candidate s path i).elim best fun c => if best.all (·.2 < c.2) = true then some c else best

/-- `vfs_resolve_mount`: the slot and the path within its mount. -/
def vfsResolveMount (s : VfsState) (path : List Char) : Option (ℕ × List Char) :=
  ((range vfsMaxMounts).foldl (resolveSlot s path) none).map fun (i, len) =>
    (i, if len = 1 then path else if path.drop len = [] then ['/'] else path.drop len)

/-- The loop keeps the first of the longest. -/
theorem resolveSlots_eq (s : VfsState) (path : List Char) (l : List ℕ) :
    l.foldl (resolveSlot s path) none = argmax Prod.snd (l.filterMap (candidate s path)) := by
  rw [argmax, foldl_filterMap]
  congr
  funext best i
  unfold resolveSlot
  cases candidate s path i <;> cases best <;> simp [argAux]

/-- No mount is at a path of more than 255 bytes, which `vfs_mount` cuts. -/
def ShortPath (_ : VfsState) : VfsCall → Prop
  | .mount path _ _ => path.length ≤ 255
  | _ => True

/-- The path is the mount point or below it; every path is below a mount point of one character. -/
def Below (root path : List Char) : Prop :=
  root = path ∨ root ++ ['/'] <+: path ∨ root.length = 1 ∧ root <+: path

theorem Below.isPrefix {root path : List Char} (h : Below root path) : root <+: path := by
  obtain rfl | h | h := h
  · exact prefix_rfl
  · exact (prefix_append root ['/']).trans h
  · exact h.2

/-- With the length of the whole root the test says where the path is. -/
theorem covers_iff {root path : List Char} :
    covers root root.length path = true ↔ Below root path := by
  simp only [covers, take_length, Bool.and_eq_true, decide_eq_true_eq, Bool.or_eq_true]
  constructor
  · rintro ⟨htake, hend⟩
    obtain ⟨rest, rfl⟩ : root <+: path := prefix_iff_eq_take.2 htake.symm
    rcases hend with hend | hone
    · cases rest with
      | nil => exact .inl (append_nil root).symm
      | cons c rest =>
        obtain rfl : c = '/' := by simpa using hend
        exact .inr (.inl ⟨rest, by simp⟩)
    · exact .inr (.inr ⟨hone, prefix_append ..⟩)
  · intro h
    refine ⟨(prefix_iff_eq_take.1 h.isPrefix).symm, ?_⟩
    obtain rfl | ⟨rest, rfl⟩ | h := h
    · exact .inl (by simp)
    · exact .inl (by simp)
    · exact .inr h.1

/-- The slot has a mount that the path is below. -/
def Covering (s : VfsState) (path : List Char) (j : ℕ) (m : Mount) : Prop :=
  j < vfsMaxMounts ∧ s.mounts j = some m ∧ Below m.path path

theorem Covering.isPrefix {path : List Char} {m : Mount} (h : Covering s path i m) :
    m.path <+: path :=
  h.2.2.isPrefix

/-- No path was cut. -/
def Whole (s : VfsState) : Prop := ∀ i m, s.mounts i = some m → m.pathLen = m.path.length

theorem Whole.update (h : Whole s) {m : Option Mount}
    (hm : ∀ m', m = some m' → m'.pathLen = m'.path.length) :
    Whole { s with mounts := update s.mounts i m } := by
  intro j m' hj
  simp only [update_apply] at hj
  split at hj
  · exact hm m' hj
  · exact h j m' hj

theorem whole_step (h : Whole s) (hshort : ShortPath s e) (hstep : vfsStep s e = some s') :
    Whole s' := by
  cases e with
  | mount path device fs =>
    obtain rfl := some.inj hstep
    unfold vfsMount
    split
    next i hi =>
      obtain ⟨m, hm, hpath⟩ := (Option.any_eq_true ..).1 (findSlot_some hi)
      refine h.update fun m' hm' => ?_
      rw [hm] at hm'
      cases hm'
      exact congrArg length (of_decide_eq_true hpath).symm
    next =>
      split
      · exact h
      · refine h.update fun m' hm' => ?_
        cases hm'
        exact (congrArg length (take_of_length_le hshort)).symm
  | umount =>
    obtain rfl := some.inj hstep
    unfold vfsUmount
    split
    · exact h
    · split
      · exact h
      · exact h.update nofun
  | openPath =>
    simp only [vfsStep, vfsOpen, Option.ite_none_right_eq_some, Option.some.injEq] at hstep
    obtain ⟨-, rfl⟩ := hstep
    split_ifs <;> exact h
  | openDevice | close | transfer =>
    obtain rfl := some.inj hstep
    exact h

theorem whole_of_reachable (h : vfsSystem.Reachable ShortPath s) : Whole s :=
  h.invariant (I := Whole) (by rintro _ rfl i m ⟨⟩)
    fun _ _ _ hs hshort hstep => whole_step hs hshort hstep

theorem mem_candidates (hw : Whole s) {path : List Char} {c : ℕ × ℕ} :
    c ∈ (range vfsMaxMounts).filterMap (candidate s path) ↔
      ∃ j m, Covering s path j m ∧ (j, m.path.length) = c := by
  simp only [mem_filterMap, mem_range, candidate, Option.bind_eq_some_iff,
    Option.ite_none_right_eq_some, Option.some.injEq, Covering]
  constructor
  · rintro ⟨j, hj, m, hm, hcovers, rfl⟩
    rw [hw j m hm] at hcovers ⊢
    exact ⟨j, m, ⟨hj, hm, covers_iff.1 hcovers⟩, rfl⟩
  · rintro ⟨j, m, ⟨hj, hm, hbelow⟩, rfl⟩
    refine ⟨j, hj, m, hm, ?_⟩
    rw [hw j m hm]
    exact ⟨covers_iff.2 hbelow, rfl⟩

theorem resolve_cases (hw : Whole s) (path : List Char) :
    (vfsResolveMount s path = none ∧ ∀ j m, ¬ Covering s path j m) ∨
    ∃ i m, Covering s path i m ∧
      (∀ j m', Covering s path j m' → m'.path.length ≤ m.path.length) ∧
      vfsResolveMount s path = some (i, if m.path.length = 1 then path
        else if path.drop m.path.length = [] then ['/'] else path.drop m.path.length) := by
  unfold vfsResolveMount
  rw [resolveSlots_eq]
  cases hbest : argmax Prod.snd ((range vfsMaxMounts).filterMap (candidate s path)) with
  | none =>
    refine .inl ⟨rfl, fun j m h => ?_⟩
    have hmem := (mem_candidates hw).2 ⟨j, m, h, rfl⟩
    rw [argmax_eq_none.1 hbest] at hmem
    exact not_mem_nil hmem
  | some =>
    obtain ⟨i, m, hi, rfl⟩ := (mem_candidates hw).1 (argmax_mem hbest)
    exact .inr ⟨i, m, hi, fun j m' h =>
      le_of_mem_argmax (f := Prod.snd) ((mem_candidates hw).2 ⟨j, m', h, rfl⟩) hbest, rfl⟩

/-- The root and two mounts, the second below the first. -/
def nestedMounts : List VfsCall :=
  [.mount ['/'] none ⟨1, 0⟩, .mount ['/', 'a'] none ⟨2, 0⟩, .mount ['/', 'a', '/', 'b'] none ⟨3, 0⟩]

theorem reachable_nestedMounts : ∃ s, nestedMounts.foldlM vfsStep ⟨fun _ => none, []⟩ = some s ∧
    vfsSystem.Reachable ShortPath s := by
  have hfirst : vfsSystem.Reachable ShortPath _ := (System.Reachable.start rfl).next
    (e := .mount ['/'] none ⟨1, 0⟩) (by simp [ShortPath]) rfl
  have hsecond : vfsSystem.Reachable ShortPath _ := hfirst.next
    (e := .mount ['/', 'a'] none ⟨2, 0⟩) (by simp [ShortPath]) rfl
  exact ⟨_, rfl, hsecond.next (e := .mount ['/', 'a', '/', 'b'] none ⟨3, 0⟩)
    (by simp [ShortPath]) rfl⟩

/-- The active slots are in the table and have different paths. -/
def PathsDiffer (s : VfsState) : Prop :=
  ∀ i m, s.mounts i = some m → i < vfsMaxMounts ∧
    ∀ j m', s.mounts j = some m' → m'.path = m.path → j = i

theorem findSlot_lt {P : Option Mount → Bool} (h : findSlot s P = some i) : i < vfsMaxMounts :=
  mem_range.1 (mem_of_find?_eq_some h)

/-- A slot gets a mount at a path that no other slot has. -/
theorem PathsDiffer.put (h : PathsDiffer s) (hi : i < vfsMaxMounts) {m : Mount}
    (hnew : ∀ j m', s.mounts j = some m' → m'.path = m.path → j = i) :
    PathsDiffer { s with mounts := update s.mounts i (some m) } := by
  intro j m₁ hj
  simp only [update_apply] at hj ⊢
  grind [PathsDiffer]

/-- A successful mount is in a slot, and the paths still differ. -/
theorem pathsDiffer_mount (h : PathsDiffer s) {path : List Char} (hlen : path.length ≤ 255)
    (device : Option (List Char)) (fs : Filesystem) :
    let r := vfsMount s path device fs
    PathsDiffer r.1 ∧ (r.2 = true → ∃ i m, r.1.mounts i = some m ∧ m.path = path ∧ m.fs = fs) := by
  unfold vfsMount
  split
  next i hi =>
    obtain ⟨m, hm, hpath⟩ := (Option.any_eq_true ..).1 (findSlot_some hi)
    have hpath := of_decide_eq_true hpath
    rw [hm]
    exact ⟨h.put (findSlot_lt hi) fun j m' hj hp => (h i m hm).2 j m' hj hp,
      fun _ => ⟨i, _, update_self .., hpath, rfl⟩⟩
  next hnone =>
    split
    · exact ⟨h, nofun⟩
    next i hi =>
      refine ⟨h.put (findSlot_lt hi) fun j m' hj hp => ?_,
        fun _ => ⟨i, _, update_self .., take_of_length_le hlen, rfl⟩⟩
      -- the search for the path has met the slot `j`
      have hj' := find?_eq_none.1 hnone j (mem_range.2 (h j m' hj).1)
      simp [hj, hp, take_of_length_le hlen] at hj'

theorem pathsDiffer_step (h : PathsDiffer s) (hshort : ShortPath s e)
    (hstep : vfsStep s e = some s') : PathsDiffer s' := by
  cases e with
  | mount path device fs =>
    obtain rfl := some.inj hstep
    exact (pathsDiffer_mount h hshort device fs).1
  | umount =>
    obtain rfl := some.inj hstep
    unfold vfsUmount
    split
    · exact h
    · split
      · exact h
      · intro j m hj
        simp only [update_apply] at hj ⊢
        grind [PathsDiffer]
  | openPath =>
    simp only [vfsStep, vfsOpen, Option.ite_none_right_eq_some, Option.some.injEq] at hstep
    obtain ⟨-, rfl⟩ := hstep
    split_ifs <;> exact h
  | openDevice | close | transfer =>
    obtain rfl := some.inj hstep
    exact h

/-- In every run with such mounts the choice does not depend on the order of the slots, and a new
mount is what its path leads to. -/
theorem mount_found (h : vfsSystem.Reachable ShortPath s) :
    (∀ path i m rel, vfsResolveMount s path = some (i, rel) → s.mounts i = some m →
      ∀ j m', Covering s path j m' → j ≠ i → m'.path.length < m.path.length) ∧
    ∀ path device fs, path.length ≤ 255 → (vfsMount s path device fs).2 = true →
      ∃ i m, (vfsMount s path device fs).1.mounts i = some m ∧ m.path = path ∧ m.fs = fs ∧
        vfsResolveMount (vfsMount s path device fs).1 path =
          some (i, if path.length = 1 then path else ['/']) := by
  have hdiffer : PathsDiffer s := h.invariant (I := PathsDiffer) (by rintro _ rfl i m ⟨⟩)
    fun _ _ _ hs hshort hstep => pathsDiffer_step hs hshort hstep
  have hwhole : Whole s := whole_of_reachable h
  refine ⟨fun path i m rel hres hm j m' hj hne => ?_, fun path device fs hlen hdone => ?_⟩
  · obtain ⟨hnone, -⟩ | ⟨i', m₁, hi, hmax, hsome⟩ := resolve_cases hwhole path
    · cases hnone.symm.trans hres
    · cases hsome.symm.trans hres
      cases hi.2.1.symm.trans hm
      refine (hmax j m' hj).lt_of_ne fun heq => hne ((hdiffer _ _ hm).2 j m' hj.2.1 ?_)
      exact (prefix_of_prefix_length_le hj.isPrefix hi.isPrefix heq.le).eq_of_length heq
  · obtain ⟨hdiffer', hslot⟩ := pathsDiffer_mount hdiffer hlen device fs
    obtain ⟨i, m, hm, rfl, hfs⟩ := hslot hdone
    have hself : Covering _ m.path i m := ⟨(hdiffer' i m hm).1, hm, .inl rfl⟩
    have hwhole' : Whole (vfsMount s m.path device fs).1 :=
      whole_step hwhole (e := .mount m.path device fs) hlen rfl
    obtain ⟨-, hnone⟩ | ⟨i', m₁, hi, hmax, hsome⟩ := resolve_cases hwhole' m.path
    · exact absurd hself (hnone i m)
    · have hpath := hi.isPrefix.eq_of_length_le (hmax i m hself)
      obtain rfl := (hdiffer' i m hm).2 i' m₁ hi.2.1 hpath
      exact ⟨i', m, hm, rfl, hfs, by simpa [hpath] using hsome⟩

/-- With mounts at `/`, `/a` and `/a/b`, another file system is mounted at `/a`. -/
theorem mount_found_nested : ∃ s, nestedMounts.foldlM vfsStep ⟨fun _ => none, []⟩ = some s ∧
    (∀ j m', Covering s ['/', 'a', '/', 'b'] j m' → j ≠ 2 → m'.path.length < 4) ∧
    ∃ i m, (vfsMount s ['/', 'a'] none ⟨7, 0⟩).1.mounts i = some m ∧ m.path = ['/', 'a'] ∧
      m.fs = ⟨7, 0⟩ ∧
      vfsResolveMount (vfsMount s ['/', 'a'] none ⟨7, 0⟩).1 ['/', 'a'] = some (i, ['/']) := by
  obtain ⟨s, hrun, hreach⟩ := reachable_nestedMounts
  obtain ⟨hunique, hfound⟩ := mount_found hreach
  refine ⟨s, hrun, ?_, hfound ['/', 'a'] none ⟨7, 0⟩ (by decide) (by cases hrun; decide)⟩
  refine hunique ['/', 'a', '/', 'b'] 2 ⟨['/', 'a', '/', 'b'], 4, [], ⟨3, 0⟩⟩ ['/'] ?_ ?_
  · cases hrun
    decide
  · cases hrun
    rfl

end BoredOS.Fs.Mounts
