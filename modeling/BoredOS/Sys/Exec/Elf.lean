import BoredOS.Mem.Mmu.Model

/-!
# Executable Files

What `elf_load` of `sys/elf.c` and `process_exec_replace_current` of `sys/process.c` read from a
file before they change anything: the `#!` line of a script, the header and the program headers of
an ELF file.

The outcome is a list of segments in the order in which `load_elf_segments` goes through them, first
those of the file and then those of its dynamic linker, with a `bad` entry where the loader gives up
(`elfItems`). The filesystem and the allocator are arbitrary.
-/

namespace BoredOS.Sys.Exec

open Mem.Mmu List

/-- A C string without its terminator. -/
abbrev Path := List UInt8

/-- The fields of `vfs_dirent_t` that the call reads. -/
structure Stat where
  mode : BitVec 32
  uid : BitVec 32
  gid : BitVec 32
  deriving DecidableEq, Repr

/-- The filesystem as the call sees it. `opens` may differ between the opens of one call, and `read`
has the bytes that are read at an offset, of at most the length asked for. -/
structure Files where
  exists_ : Path → Bool
  isDirectory : Path → Bool
  getInfo : Path → Option Stat
  opens : ℕ → Path → Bool
  read : Path → ℕ → ℕ → List UInt8
  nosuid : Path → Bool

/-! ## Scripts -/

def isBlank (c : UInt8) : Bool := c == 32 || c == 9

/-- The interpreter and its argument in the first bytes of a script. -/
def shebang (hdr : List UInt8) : Option (Path × Path) :=
  match hdr with
  | 35 :: 33 :: rest =>
    let line := rest.takeWhile fun c => !(c == 0 || c == 10 || c == 13)
    let p := line.dropWhile isBlank
    let interp := p.takeWhile fun c => !isBlank c
    let arg := (p.dropWhile fun c => !isBlank c).dropWhile isBlank
    if interp = [] then none else some (interp, arg)
  | _ => none

/-- The bytes of `hdr`. -/
def scriptHeader (files : Files) (path : Path) : List UInt8 :=
  if files.opens 0 path = true then files.read path 0 255 else []

/-- `new_args`. -/
def scriptArgs (arg path : Path) (args : Option Path) : Path :=
  (if arg = [] then [] else arg ++ [32]) ++ path ++
    (match args with
    | some a => if a = [] then [] else 32 :: a
    | none => [])

/-- The size of `new_args`, with the terminator. -/
def newArgsSize : ℕ := 1024

/-! ## Headers -/

/-- A little-endian number in the bytes read. -/
def number (bytes : List UInt8) (off len : ℕ) : ℕ :=
  ((bytes.drop off).take len).foldr (fun b n => b.toNat + 256 * n) 0

/-- The fields of `Elf64_Ehdr` that the loader reads. -/
structure Ehdr where
  ident : List UInt8
  type : ℕ
  machine : ℕ
  entry : ℕ
  phoff : ℕ
  phentsize : ℕ
  phnum : ℕ
  deriving DecidableEq, Repr

/-- The fields of `Elf64_Phdr` that the loader reads. -/
structure Phdr where
  type : ℕ
  flags : ℕ
  offset : ℕ
  vaddr : ℕ
  filesz : ℕ
  memsz : ℕ
  deriving DecidableEq, Repr

def readEhdr (files : Files) (path : Path) : Option Ehdr :=
  let bytes := files.read path 0 64
  if bytes.length = 64 then
    some { ident := bytes.take 16, type := number bytes 16 2, machine := number bytes 18 2,
           entry := number bytes 24 8, phoff := number bytes 32 8, phentsize := number bytes 54 2,
           phnum := number bytes 56 2 }
  else none

def readPhdr (files : Files) (path : Path) (ehdr : Ehdr) (i : ℕ) : Option Phdr :=
  let bytes := files.read path ((ehdr.phoff + i * ehdr.phentsize) % 2 ^ 64) 56
  if bytes.length = 56 then
    some { type := number bytes 0 4, flags := number bytes 4 4, offset := number bytes 8 8,
           vaddr := number bytes 16 8, filesz := number bytes 32 8, memsz := number bytes 40 8 }
  else none

def elfMagic : List UInt8 := [0x7f, 69, 76, 70]

def etExec : ℕ := 2

def etDyn : ℕ := 3

def emX86_64 : ℕ := 62

def ptLoad : ℕ := 1

def ptInterp : ℕ := 3

def interpLoadBase : ℕ := 0x70000000

def pieLoadBase : ℕ := 0x40000000

/-- The checks of `elf_load` on the header of the file. -/
def elfHeader (files : Files) (path : Path) : Option Ehdr := do
  guard (files.opens 1 path = true)
  let ehdr ← readEhdr files path
  guard (ehdr.ident.take 4 = elfMagic)
  -- `ELFCLASS64` and `ELFDATA2LSB`
  guard (ehdr.ident[4]? = some 2)
  guard (ehdr.ident[5]? = some 1)
  guard (ehdr.type = etExec ∨ ehdr.type = etDyn)
  guard (ehdr.machine = emX86_64)
  pure ehdr

def readablePhdrs (files : Files) (path : Path) (ehdr : Ehdr) : List Phdr :=
  (range ehdr.phnum).filterMap (readPhdr files path ehdr)

/-- One `PT_INTERP` header: what is read goes to the start of `interp_path`, a short read leaves the
bytes that were there, and the byte behind the length becomes the NUL. -/
def readInterp (files : Files) (path : Path) (buf : Path) (ph : Phdr) : Path :=
  let len := min ph.filesz 255
  let got := files.read path ph.offset len
  got ++ (buf.take len).drop got.length ++ 0 :: buf.drop (len + 1)

/-- The string in `interp_path`. Bytes of the buffer that were never set count as 0. -/
def interpPath (files : Files) (path : Path) (ehdr : Ehdr) : Path :=
  (((readablePhdrs files path ehdr).filter fun ph => ph.type == ptInterp).foldl
    (readInterp files path) (replicate 256 0)).takeWhile fun c => c != 0

/-- `/usr/lib/ld.so`. -/
def usrLdSo : Path := [47, 117, 115, 114, 47, 108, 105, 98, 47, 108, 100, 46, 115, 111]

/-- `/lib/ld.so`. -/
def ldSo : Path := [47, 108, 105, 98, 47, 108, 100, 46, 115, 111]

/-- The dynamic linker that is opened. -/
def interpFile (files : Files) (interp : Path) : Option Path :=
  if files.opens 2 interp = true then some interp
  else if interp = ldSo ∨ interp = usrLdSo then none
  else if files.opens 2 usrLdSo = true then some usrLdSo
  else if files.opens 2 ldSo = true then some ldSo
  else none

/-- Of the dynamic linker only the magic number is checked. -/
def interpHeader (files : Files) (path : Path) : Option Ehdr := do
  let ehdr ← readEhdr files path
  guard (ehdr.ident.take 4 = elfMagic)
  pure ehdr

def loadBase (pie : ℕ) (ehdr : Ehdr) : ℕ := if ehdr.type = etDyn then pie else 0

/-! ## Segments -/

/-- Which of the allocations and mappings for a program header succeed. -/
structure SegmentWorld where
  allocates : ℕ → Bool
  maps : ℕ → ℕ → Bool
  area : ℕ → Bool

/-- One round of the loop of `load_elf_segments`: a header that cannot be read, or a segment with
its address, its sizes, its bytes and what succeeds for it. -/
inductive Item where
  | bad
  | skip
  | segment (vaddr memsz : ℕ) (flags : ℕ) (bytes : List UInt8) (allocates : Bool)
      (maps : ℕ → Bool) (area : Bool)

def segmentItem (files : Files) (path : Path) (base : ℕ) (w : SegmentWorld) (ehdr : Ehdr)
    (i : ℕ) : Item :=
  match readPhdr files path ehdr i with
  | none => .bad
  | some ph =>
    if ph.type = ptLoad ∧ ph.memsz ≠ 0 then
      .segment ((base + ph.vaddr) % 2 ^ 64) ph.memsz ph.flags
        (if 0 < ph.filesz then files.read path ph.offset (ph.filesz % 2 ^ 32) else [])
        (w.allocates i) (w.maps i) (w.area i)
    else .skip

def fileItems (files : Files) (path : Path) (base : ℕ) (w : SegmentWorld) (ehdr : Ehdr) :
    List Item :=
  (range ehdr.phnum).map (segmentItem files path base w ehdr)

/-- The part of `elf_load` for the dynamic linker. -/
def interpItems (files : Files) (w : SegmentWorld) (interp : Path) : List Item :=
  if interp = [] then []
  else
    match interpFile files interp with
    | none => [.bad]
    | some path =>
      match interpHeader files path with
      | none => [.bad]
      | some ehdr => fileItems files path (loadBase interpLoadBase ehdr) w ehdr

/-- What `elf_load` goes through, until it gives up. -/
def elfItems (files : Files) (exec interp : SegmentWorld) (path : Path) : List Item :=
  match elfHeader files path with
  | none => [.bad]
  | some ehdr =>
    fileItems files path (loadBase pieLoadBase ehdr) exec ehdr ++
      interpItems files interp (interpPath files path ehdr)

/-- `entry_point` of the result, for a file that was loaded. -/
def entryPoint (files : Files) (path : Path) : ℕ :=
  match elfHeader files path with
  | none => 0
  | some ehdr =>
    match (interpFile files (interpPath files path ehdr)).bind (interpHeader files) with
    | some ih =>
      if interpPath files path ehdr = [] then
        (loadBase pieLoadBase ehdr + ehdr.entry) % 2 ^ 64
      else (loadBase interpLoadBase ih + ih.entry) % 2 ^ 64
    | none => (loadBase pieLoadBase ehdr + ehdr.entry) % 2 ^ 64

def startPage (vaddr : ℕ) : ℕ := vaddr - vaddr % 4096

def totalNeeded (vaddr memsz : ℕ) : ℕ := (memsz + vaddr % 4096 + 4095) % 2 ^ 64 / 4096 * 4096

def segmentPages (vaddr memsz : ℕ) : List ℕ :=
  (range (totalNeeded vaddr memsz / 4096)).map fun p => (startPage vaddr + p * 4096) % 2 ^ 64

/-- `pages_to_order`, up to `PMM_MAX_ORDER`. -/
def pagesToOrder (pages : ℕ) : ℕ := ((range 18).find? fun o => decide (pages ≤ 2 ^ o)).getD 18

/-- The bytes that `kmalloc_aligned` really hands out for a number of pages. -/
def blockSize (size : ℕ) : ℕ := 2 ^ pagesToOrder (size / 4096) * 4096

/-- `kmalloc_aligned` can hand out that much. -/
def allocatable (size : ℕ) : Bool := size != 0 && decide (pagesToOrder (size / 4096) < 18)

end BoredOS.Sys.Exec
