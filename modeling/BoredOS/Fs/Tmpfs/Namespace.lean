import BoredOS.Lib.Forest
import BoredOS.Lib.Transition

/-!
# The Names of tmpfs

The calls of `fs/tmpfs.c` that change the tree of inodes: `open` with a mode that creates, `mkdir`,
`rmdir`, `unlink` and `rename`, with any paths and with memory that may run out. `tmpfs_lookup`
takes a path apart and makes what is missing on the way.

`TreeOk` says that the inodes are a tree. `TmpfsSafe` is the condition on a call: no child is made
below a file, no name is empty or becomes the name of a sibling when it is cut, and no directory is
moved below itself.
-/

namespace BoredOS.Fs.Tmpfs

open Lib.Forest Lib.Transition Function

/-! ## The inodes -/

/-- `tmpfs_inode_t`, as far as names are concerned. The children are a list, the last one added
first; `children` and `next` are its links. -/
structure Inode where
  name : List Char
  isDir : Bool
  parent : Option ℕ
  children : List ℕ

/-- The inodes by address. `count` is an address that was never used. -/
structure Tree where
  inode : ℕ → Inode
  live : ℕ → Bool
  count : ℕ

def root : ℕ := 0

def Tree.kids (t : Tree) (n : ℕ) : List ℕ := (t.inode n).children

def Tree.set (t : Tree) (n : ℕ) (f : Inode → Inode) : Tree :=
  { t with inode := update t.inode n (f (t.inode n)) }

/-- `sizeof(node->name) - 1`. -/
def nameMax : ℕ := 255

/-- `tmpfs_alloc_inode`; `mem` tells for each address whether there is memory. -/
def tmpfsAllocInode (mem : ℕ → Bool) (t : Tree) (name : List Char) (isDir : Bool) :
    Option (Tree × ℕ) :=
  if mem t.count = true then
    some ({ inode := update t.inode t.count ⟨name.take nameMax, isDir, none, []⟩
            live := update t.live t.count true
            count := t.count + 1 }, t.count)
  else none

def tmpfsFindChild (t : Tree) (dir : ℕ) (name : List Char) : Option ℕ :=
  if (t.inode dir).isDir = true then (t.kids dir).find? fun c => (t.inode c).name == name
  else none

def tmpfsAddChild (t : Tree) (parent child : ℕ) : Tree :=
  (t.set child fun i => { i with parent := some parent }).set parent fun i =>
    { i with children := child :: i.children }

/-- The loop that takes a child out of the list of its parent. -/
def unlinkChild (t : Tree) (parent child : ℕ) : Tree :=
  t.set parent fun i => { i with children := i.children.erase child }

/-- `kfree`: nothing is known of the inode any more. -/
def freeInode (t : Tree) (n : ℕ) : Tree :=
  { t with
    inode := update t.inode n ⟨[], false, none, []⟩
    live := update t.live n false }

/-! ## Looking up a path -/

/-- The segments of a path: up to 255 bytes without a slash, then all slashes that follow. -/
def segmentsLoop : ℕ → List Char → List (List Char)
  | 0, _ => []
  | _ + 1, [] => []
  | fuel + 1, c :: p =>
    let segment := ((c :: p).takeWhile (· != '/')).take 255
    segment :: segmentsLoop fuel (((c :: p).drop segment.length).dropWhile (· == '/'))

/-- The segments behind the first slash; each has a byte or skips a slash. -/
def segments (path : List Char) : List (List Char) :=
  segmentsLoop path.length (if path.head? = some '/' then path.tail else path)

/-- What `tmpfs_lookup` is to make. -/
structure Create where
  dirs : Bool
  leaf : Bool
  leafIsDir : Bool

/-- The loop of `tmpfs_lookup`. -/
def lookupLoop (mem : ℕ → Bool) (create : Create) (t : Tree) (cur : ℕ) :
    List (List Char) → Tree × Option ℕ
  | [] => (t, some cur)
  | segment :: rest =>
    match tmpfsFindChild t cur segment with
    | some next => lookupLoop mem create t next rest
    | none =>
      let isLast := rest.isEmpty
      if (isLast && create.leaf || !isLast && create.dirs) = true then
        match tmpfsAllocInode mem t segment (!isLast || create.leafIsDir) with
        | none => (t, none)
        | some (t, next) => lookupLoop mem create (tmpfsAddChild t cur next) next rest
      else (t, none)

def tmpfsLookup (mem : ℕ → Bool) (create : Create) (t : Tree) (path : List Char) :
    Tree × Option ℕ :=
  if path = [] ∨ path = ['/'] then (t, some root)
  else lookupLoop mem create t root (segments path)

/-- `tmpfs_lookup` with nothing to make. -/
def tmpfsFind (t : Tree) (path : List Char) : Option ℕ :=
  (tmpfsLookup (fun _ => false) ⟨false, false, false⟩ t path).2

/-! ## The calls -/

/-- `tmpfs_vfs_open`, with the inode of the handle; `handleMem` tells whether there is memory for
the handle. -/
def tmpfsVfsOpen (mem : ℕ → Bool) (handleMem : Bool) (t : Tree) (path : List Char) (mode : Char) :
    Tree × Option ℕ :=
  let writeMode := mode == 'w' || mode == 'a'
  let (t, node) := tmpfsLookup mem ⟨writeMode, writeMode, false⟩ t path
  match node with
  | none => (t, none)
  | some n =>
    if (t.inode n).isDir = true ∧ mode ≠ 'r' then (t, none)
    else if handleMem = true then (t, some n) else (t, none)

def tmpfsVfsMkdir (mem : ℕ → Bool) (t : Tree) (path : List Char) : Tree × Bool :=
  let (t, node) := tmpfsLookup mem ⟨true, true, true⟩ t path
  (t, node.isSome)

/-- The end of `tmpfs_vfs_rmdir` and `tmpfs_vfs_unlink`. -/
def removeNode (t : Tree) (parent n : ℕ) : Tree := freeInode (unlinkChild t parent n) n

def tmpfsVfsRmdir (t : Tree) (path : List Char) : Tree × Bool :=
  match tmpfsFind t path with
  | none => (t, false)
  | some n =>
    match (t.inode n).parent with
    | none => (t, false)
    | some parent =>
      if (t.inode n).isDir = true ∧ t.kids n = [] then (removeNode t parent n, true)
      else (t, false)

def tmpfsVfsUnlink (t : Tree) (path : List Char) : Tree × Bool :=
  match tmpfsFind t path with
  | none => (t, false)
  | some n =>
    match (t.inode n).parent with
    | none => (t, false)
    | some parent =>
      if (t.inode n).isDir = true then (t, false) else (removeNode t parent n, true)

/-- `new_name`: what stands behind the last slash. -/
def newName (path : List Char) : List Char := (path.reverse.takeWhile (· != '/')).reverse

/-- `new_parent_path`, cut to 255 bytes. -/
def newParentPath (path : List Char) : List Char :=
  (path.take (path.length - (newName path).length - 1)).take 255

/-- The new name, as much of it as the field holds. -/
def setName (t : Tree) (n : ℕ) (name : List Char) : Tree :=
  t.set n fun i => { i with name := name.take nameMax }

/-- The end of `tmpfs_vfs_rename`: the node gets its new name and its new parent. -/
def moveNode (t : Tree) (oldParent newParent n : ℕ) (name : List Char) : Tree :=
  tmpfsAddChild (setName (unlinkChild t oldParent n) n name) newParent n

def tmpfsVfsRename (t : Tree) (oldPath newPath : List Char) : Tree × Bool :=
  match tmpfsFind t oldPath with
  | none => (t, false)
  | some n =>
    match (t.inode n).parent with
    | none => (t, false)
    | some oldParent =>
      match tmpfsFind t (newParentPath newPath) with
      | none => (t, false)
      | some newParent =>
        if (t.inode newParent).isDir = true then
          match tmpfsFindChild t newParent (newName newPath) with
          | none => (moveNode t oldParent newParent n (newName newPath), true)
          | some existing =>
            if existing = n then (t, true)
            else if (t.inode existing).isDir = true then (t, false)
            else
              (moveNode (removeNode t newParent existing) oldParent newParent n
                (newName newPath), true)
        else (t, false)

/-! ## The system -/

/-- The calls, with the memory that they find. -/
inductive TmpfsOp where
  | openFile (mem : ℕ → Bool) (handleMem : Bool) (path : List Char) (mode : Char)
  | mkdir (mem : ℕ → Bool) (path : List Char)
  | rmdir (path : List Char)
  | unlink (path : List Char)
  | rename (oldPath newPath : List Char)

def tmpfsStep (t : Tree) : TmpfsOp → Tree
  | .openFile mem handleMem path mode => (tmpfsVfsOpen mem handleMem t path mode).1
  | .mkdir mem path => (tmpfsVfsMkdir mem t path).1
  | .rmdir path => (tmpfsVfsRmdir t path).1
  | .unlink path => (tmpfsVfsUnlink t path).1
  | .rename oldPath newPath => (tmpfsVfsRename t oldPath newPath).1

/-- After `tmpfs_init` there is the root. -/
def tmpfsInit : Tree where
  inode := fun n => ⟨[], n == root, none, []⟩
  live := fun n => n == root
  count := 1

def tmpfsSystem : System Tree TmpfsOp where
  init t := t = tmpfsInit
  step t op t' := tmpfsStep t op = t'

/-! ## The property -/

/-- The inodes are a tree. Distinct names make the children of an inode distinct, and the parent
pointer leaves one parent. -/
structure TreeOk (t : Tree) : Prop where
  rootLive : t.live root = true
  rootDir : (t.inode root).isDir = true
  rootTop : (t.inode root).parent = none
  bound : ∀ n, t.live n = true → n < t.count
  link : ∀ n c, c ∈ t.kids n → t.live n = true ∧ t.live c = true ∧ (t.inode c).parent = some n
  dirs : ∀ n, t.kids n ≠ [] → (t.inode n).isDir = true
  distinct : ∀ n, ((t.kids n).map fun c => (t.inode c).name).Nodup
  nonempty : ∀ n c, c ∈ t.kids n → (t.inode c).name ≠ []
  reached : ∀ n, t.live n = true → Reaches t.kids root n

/-- `tmpfs_lookup` makes inodes below directories only, under names that are not empty. -/
def WalkSafe (mem : ℕ → Bool) (t : Tree) (cur : ℕ) : List (List Char) → Prop
  | [] => True
  | segment :: rest =>
    match tmpfsFindChild t cur segment with
    | some next => WalkSafe mem t next rest
    | none => mem t.count = true → (t.inode cur).isDir = true ∧ segment ≠ []

/-- A path on which inodes may be made. -/
def CreateSafe (mem : ℕ → Bool) (t : Tree) (path : List Char) : Prop :=
  path = [] ∨ path = ['/'] ∨ WalkSafe mem t root (segments path)

/-- The new parent is not below the inode, and the new name is not empty and is no other child's
when it is cut to the size of the field. -/
structure MoveSafe (t : Tree) (n newParent : ℕ) (name : List Char) : Prop where
  above : ¬ Reaches t.kids n newParent
  nonempty : name ≠ []
  fresh : ∀ c ∈ t.kids newParent, c ≠ n → (t.inode c).name ≠ name →
    (t.inode c).name ≠ name.take nameMax

/-- A rename that gets as far as the move is safe. -/
def RenameSafe (t : Tree) (oldPath newPath : List Char) : Prop :=
  ∀ n newParent, tmpfsFind t oldPath = some n → (t.inode n).parent ≠ none →
    tmpfsFind t (newParentPath newPath) = some newParent → (t.inode newParent).isDir = true →
    (∀ existing, tmpfsFindChild t newParent (newName newPath) = some existing →
      existing ≠ n ∧ (t.inode existing).isDir = false) →
    MoveSafe t n newParent (newName newPath)

def TmpfsSafe (t : Tree) : TmpfsOp → Prop
  | .openFile mem _ path mode => mode = 'w' ∨ mode = 'a' → CreateSafe mem t path
  | .mkdir mem path => CreateSafe mem t path
  | .rename oldPath newPath => RenameSafe t oldPath newPath
  | _ => True

/-- A rename of a directory to a place in its own subtree. -/
def IntoItself (t : Tree) (oldPath newPath : List Char) : Prop :=
  ∃ n newParent, tmpfsFind t oldPath = some n ∧ (t.inode n).isDir = true ∧
    tmpfsFind t (newParentPath newPath) = some newParent ∧ Reaches t.kids n newParent

end BoredOS.Fs.Tmpfs
