import Mathlib

/-!
# Partitions of a Disk

`disk_rescan` of `dev/disk_manager.c` with the two parsers. Sectors are read from a disk whose reads
succeed, and there is memory for the buffers. Labels, driver data and the messages on the serial
line are left out.

Both parsers come down to one list of partitions that are registered in order (`registerAll`), as
far as the table has room. For a GPT it is the list of the used entries; for an MBR every used entry
is on it twice.
-/

namespace BoredOS.Dev.Partitions

open List UInt8

/-! ## The disk -/

abbrev Sector := ℕ → UInt8

/-- `n` bytes from `off` on, as a number with the low byte first. -/
def le (b : Sector) (off : ℕ) : ℕ → ℕ
  | 0 => 0
  | n + 1 => (b off).toNat + 256 * le b (off + 1) n

/-- What `disk_rescan` reads of a disk that is not a partition. -/
structure Whole where
  addr : ℕ
  devname : List UInt8
  totalSectors : ℕ
  sector : ℕ → Sector

/-- An entry of `disks`. `addr` is the address of a disk that is not a partition. -/
structure Disk where
  addr : Option ℕ
  devname : List UInt8
  parent : Option ℕ
  lbaOffset : ℕ
  totalSectors : ℕ
  isFat32 : Bool
  isEsp : Bool
  deriving DecidableEq

def maxDisks : ℕ := 64

/-- A partition that is to be registered. -/
structure Part where
  start : ℕ
  size : ℕ
  fat32 : Bool
  esp : Bool

/-- The `Disk` that `disk_register_partition` fills in. -/
def partition (w : Whole) (p : Part) (num : ℕ) : Disk where
  addr := none
  devname := w.devname ++ [ofNat (48 + num)]
  parent := some w.addr
  lbaOffset := p.start
  totalSectors := p.size
  isFat32 := p.fat32
  isEsp := p.esp

def diskRegisterPartition (w : Whole) (disks : List Disk) (p : Part) (num : ℕ) : List Disk :=
  if maxDisks ≤ disks.length then disks else disks ++ [partition w p num]

/-! ## The parsers -/

def isFat32Bpb (b : Sector) : Bool :=
  b 510 == 0x55 && b 511 == 0xAA && (([b 82, b 83, b 84, b 85, b 86] == [70, 65, 84, 51, 50]) ||
      (le b 11 2 == 512 && le b 22 2 == 0 && decide (0 < le b 36 4)))

def diskProbeExt4 (w : Whole) (lba : ℕ) : Bool := le (w.sector ((lba + 2) % 2 ^ 32)) 56 2 == 0xEF53

/-- The flags of a partition: ext4 is looked for first. -/
def partAt (w : Whole) (start size : ℕ) (esp : Bool) : Part :=
  ⟨start, size, !diskProbeExt4 w start && (esp || isFat32Bpb (w.sector start)), esp⟩

/-- The partition of entry `i` of an MBR, unless the loop skips the entry. -/
def mbrPart (w : Whole) (i : ℕ) : Option Part :=
  let b := w.sector 0
  let start := le b (446 + 16 * i + 8) 4
  let size := le b (446 + 16 * i + 12) 4
  let type := b (446 + 16 * i + 4)
  if type = 0 ∨ size = 0 ∨ w.totalSectors ≤ start then none
  else some (partAt w start size (type == 0xEF))

/-- The loop of `parse_mbr_partitions`, with `part_num`. -/
def mbrLoop (w : Whole) : List ℕ → List Disk → ℕ → List Disk × ℕ
  | [], disks, num => (disks, num)
  | i :: rest, disks, num =>
    match mbrPart w i with
    | none => mbrLoop w rest disks num
    | some p =>
      let disks := diskRegisterPartition w disks p num
      mbrLoop w rest (diskRegisterPartition w disks { p with esp := false } num) (num + 1)

/-- The disk is one FAT32 volume. -/
def markRaw (w : Whole) (d : Disk) : Disk :=
  if d.addr = some w.addr then { d with isFat32 := true, lbaOffset := 0 } else d

def parseMbrPartitions (w : Whole) (disks : List Disk) : List Disk :=
  let b := w.sector 0
  if b 510 ≠ 0x55 ∨ b 511 ≠ 0xAA then disks
  else
    let (disks, num) := mbrLoop w (List.range 4) disks 1
    if num = 1 ∧ isFat32Bpb b = true then disks.map (markRaw w) else disks

/-- `hdr->signature` is `"EFI PART"`. -/
def isGpt (w : Whole) : Prop := le (w.sector 1) 0 8 = 0x5452415020494645
  deriving Decidable

def numEntries (w : Whole) : ℕ := le (w.sector 1) 80 4

def entrySize (w : Whole) : ℕ := le (w.sector 1) 84 4

def entryLba (w : Whole) : ℕ := le (w.sector 1) 72 8

/-- `entry_lba_offset` and `entry_sector_offset` of entry `i`. -/
def entryAt (w : Whole) (i : ℕ) : ℕ × ℕ :=
  ((entryLba w % 2 ^ 32 + i * entrySize w % 2 ^ 32 / 512) % 2 ^ 32, i * entrySize w % 2 ^ 32 % 512)

/-- The type GUID at `off`. -/
def typeGuid (b : Sector) (off : ℕ) : List UInt8 := (List.range 16).map fun j => b (off + j)

def espGuid : List UInt8 :=
  [0x28, 0x73, 0x2A, 0xC1, 0x1F, 0xF8, 0xD2, 0x11, 0xBA, 0x4B, 0x00, 0xA0, 0xC9, 0x3E, 0xC9, 0x3B]

/-- The partition of an entry at `off` of a buffer, unless the loop skips it. -/
def gptPart (w : Whole) (b : Sector) (off : ℕ) : Option Part :=
  let start := le b (off + 32) 8 % 2 ^ 32
  let stop := le b (off + 40) 8 % 2 ^ 32
  let size := (stop + 2 ^ 32 - start + 1) % 2 ^ 32
  if (typeGuid b off).all (· == 0) = true ∨ size = 0 then none
  else some (partAt w start size (typeGuid b off == espGuid))

/-- The loop of `parse_gpt_partitions`; `buf` holds the sector `last`. -/
def gptLoop (w : Whole) : List ℕ → List Disk → ℕ → ℕ → Sector → List Disk
  | [], disks, _, _, _ => disks
  | i :: rest, disks, num, last, buf =>
    let lba := (entryAt w i).1
    let buf := if lba ≠ last then w.sector lba else buf
    match gptPart w buf (entryAt w i).2 with
    | none => gptLoop w rest disks num lba buf
    | some p => gptLoop w rest (diskRegisterPartition w disks p num) (num + 1) lba buf

/-- `parse_gpt_partitions`; `junk` is what the new buffer holds. -/
def parseGptPartitions (w : Whole) (disks : List Disk) (junk : Sector) : List Disk :=
  if ¬ isGpt w ∨ numEntries w = 0 ∨ entrySize w < 128 then disks
  else gptLoop w (List.range (min (numEntries w) 128)) disks 1 0xFFFFFFFF junk

/-! ## Rescanning -/

def isChild (w : Whole) (d : Disk) : Bool := d.parent == some w.addr

/-- The loop of `disk_remove_partitions` at index `i`. -/
def removeLoop (w : Whole) : ℕ → List Disk → ℕ → List Disk
  | 0, disks, _ => disks
  | fuel + 1, disks, i =>
    match disks[i]? with
    | none => disks
    | some d =>
      if isChild w d then removeLoop w fuel (disks.eraseIdx i) i
      else removeLoop w fuel disks (i + 1)

def diskRemovePartitions (w : Whole) (disks : List Disk) : List Disk :=
  removeLoop w (disks.length + 1) disks 0

def diskRescan (w : Whole) (disks : List Disk) (junk : Sector) : List Disk :=
  let disks := diskRemovePartitions w disks
  if isGpt w then parseGptPartitions w disks junk else parseMbrPartitions w disks

/-! ## What a rescan is for -/

/-- Start and size of the used entries of a GPT. -/
def gptEntries (w : Whole) : List (ℕ × ℕ) :=
  (List.range (numEntries w)).filterMap fun i =>
    let b := w.sector (entryLba w + i * 128 / 512)
    let off := i * 128 % 512
    if (typeGuid b off).all (· == 0) = true then none
    else some (le b (off + 32) 8, le b (off + 40) 8 + 1 - le b (off + 32) 8)

/-- Start and size of the used entries of an MBR. -/
def mbrEntries (w : Whole) : List (ℕ × ℕ) :=
  (List.range 4).filterMap fun i =>
    if w.sector 0 (446 + 16 * i + 4) = 0 then none
    else some (le (w.sector 0) (446 + 16 * i + 8) 4, le (w.sector 0) (446 + 16 * i + 12) 4)

/-- The used entries of the partition table. -/
def entries (w : Whole) : List (ℕ × ℕ) := if isGpt w then gptEntries w else mbrEntries w

/-- A valid partition table on a disk with 32-bit sector numbers. -/
structure Valid (w : Whole) : Prop where
  total : w.totalSectors < 2 ^ 32
  inside : ∀ e ∈ entries w, 0 < e.2 ∧ e.1 + e.2 ≤ w.totalSectors
  gpt : isGpt w → entrySize w = 128 ∧ numEntries w ≤ 128 ∧ (entries w).length ≤ 9 ∧
    entryLba w + 32 ≤ w.totalSectors
  mbr : ¬ isGpt w → w.sector 0 510 = 0x55 ∧ w.sector 0 511 = 0xAA

/-- The registered partitions of the disk. -/
def children (w : Whole) (disks : List Disk) : List Disk := disks.filter (isChild w)

/-- The disks that are not partitions of the disk. -/
def others (w : Whole) (disks : List Disk) : List Disk := disks.filter fun d => !isChild w d

def range (d : Disk) : ℕ × ℕ := (d.lbaOffset, d.totalSectors)

/-- After a rescan the partitions are those of the table, and after another one too. -/
structure Exact (w : Whole) (disks : List Disk) (junk junk' : Sector) : Prop where
  ranges : ((children w (diskRescan w disks junk)).map range).Perm (entries w)
  names : ((children w (diskRescan w disks junk)).map (·.devname)).Nodup
  inside : ∀ d ∈ children w (diskRescan w disks junk), d.lbaOffset + d.totalSectors ≤ w.totalSectors
  again : children w (diskRescan w (diskRescan w disks junk) junk') =
    children w (diskRescan w disks junk)

/-! ## The table -/

variable {w : Whole} {disks : List Disk} {junk junk' : Sector}

/-- The partitions are registered in order. -/
def registerAll (w : Whole) (disks : List Disk) (ps : List (Part × ℕ)) : List Disk :=
  ps.foldl (fun disks p => diskRegisterPartition w disks p.1 p.2) disks

/-- What does not fit into the table is dropped. -/
theorem registerAll_eq (ps : List (Part × ℕ)) : registerAll w disks ps =
    disks ++ (ps.map fun p => partition w p.1 p.2).take (maxDisks - disks.length) := by
  induction ps generalizing disks with
  | nil => simp [registerAll]
  | cons p ps ih =>
    have hstep : registerAll w disks (p :: ps) =
        registerAll w (diskRegisterPartition w disks p.1 p.2) ps := rfl
    rw [hstep, ih]
    unfold diskRegisterPartition
    split
    next hfull => simp [Nat.sub_eq_zero_of_le hfull]
    next hroom =>
      obtain ⟨n, hn⟩ : ∃ n, maxDisks - disks.length = n + 1 :=
        ⟨maxDisks - disks.length - 1, by omega⟩
      have hn' : maxDisks - (disks.length + 1) = n := by omega
      simp [hn, hn']

/-- Removing in the loop is removing all at once. -/
theorem removeLoop_eq (fuel i : ℕ) (hfuel : disks.length - i < fuel) : removeLoop w fuel disks i =
    disks.take i ++ (disks.drop i).filter fun d => !isChild w d := by
  induction fuel generalizing disks i with
  | zero => omega
  | succ fuel ih =>
    unfold removeLoop
    cases hd : disks[i]? with
    | none =>
      have hlen := getElem?_eq_none_iff.1 hd
      simp [take_of_length_le hlen, drop_eq_nil_of_le hlen]
    | some d =>
      obtain ⟨hlt, hget⟩ := List.getElem?_eq_some_iff.1 hd
      have hdrop : disks.drop i = d :: disks.drop (i + 1) := by
        rw [← hget]
        exact drop_eq_getElem_cons hlt
      dsimp only
      split
      next hchild =>
        have htake : (disks.eraseIdx i).take i = disks.take i := by
          rw [eraseIdx_eq_take_drop_succ]
          exact take_left' (by simp; omega)
        have hrest : (disks.eraseIdx i).drop i = disks.drop (i + 1) := by
          rw [eraseIdx_eq_take_drop_succ]
          exact drop_left' (by simp; omega)
        rw [ih i (by rw [length_eraseIdx_of_lt hlt]; omega), htake, hrest, hdrop]
        simp [hchild]
      next hother =>
        rw [ih (i + 1) (by omega), hdrop, take_add_one, hd]
        simp [hother]

theorem diskRemovePartitions_eq : diskRemovePartitions w disks = others w disks := by
  unfold diskRemovePartitions
  rw [removeLoop_eq _ _ (by omega)]
  rfl

/-! ## The parsers as lists -/

def gptParts (w : Whole) : List Part :=
  (List.range (min (numEntries w) 128)).filterMap fun i =>
    gptPart w (w.sector (entryAt w i).1) (entryAt w i).2

theorem gptLoop_eq {is : List ℕ} (hlba : ∀ i ∈ is, (entryAt w i).1 ≠ 0xFFFFFFFF) {num last : ℕ}
    {buf : Sector} (hbuf : last = 0xFFFFFFFF ∨ buf = w.sector last) :
    gptLoop w is disks num last buf = registerAll w disks
      ((is.filterMap fun i => gptPart w (w.sector (entryAt w i).1) (entryAt w i).2).zipIdx
        num) := by
  induction is generalizing disks num last buf with
  | nil => rfl
  | cons i is ih =>
    -- the buffer holds the sector of the entry, read now or before
    have hread : (if (entryAt w i).1 ≠ last then w.sector (entryAt w i).1 else buf) =
        w.sector (entryAt w i).1 := by
      split
      next => rfl
      next hsame =>
        have hlast := not_not.1 hsame
        rw [hbuf.resolve_left (hlast ▸ hlba i (by simp)), hlast]
    have hrest : ∀ j ∈ is, (entryAt w j).1 ≠ 0xFFFFFFFF := fun j hj => hlba j (by simp [hj])
    unfold gptLoop
    dsimp only
    rw [hread]
    cases hpart : gptPart w (w.sector (entryAt w i).1) (entryAt w i).2 with
    | none => simp [ih hrest (.inr rfl), hpart]
    | some =>
      simp only [ih hrest (.inr rfl), filterMap_cons, hpart, zipIdx_cons]
      rfl

/-- Each partition of an MBR is registered as it is and without the ESP flag. -/
def twice (p : Part × ℕ) : List (Part × ℕ) := [p, ({ p.1 with esp := false }, p.2)]

theorem mbrLoop_eq {is : List ℕ} {num : ℕ} : mbrLoop w is disks num =
    (registerAll w disks (((is.filterMap (mbrPart w)).zipIdx num).flatMap twice),
      num + (is.filterMap (mbrPart w)).length) := by
  induction is generalizing disks num with
  | nil => rfl
  | cons i is ih =>
    unfold mbrLoop
    cases hpart : mbrPart w i with
    | none => simp [ih, hpart]
    | some =>
      simp only [ih, filterMap_cons, hpart, zipIdx_cons, flatMap_cons, length_cons, Prod.mk.injEq]
      exact ⟨rfl, by omega⟩

/-- What a rescan registers. -/
def parts (w : Whole) : List (Part × ℕ) :=
  if isGpt w then (gptParts w).zipIdx 1
  else (((List.range 4).filterMap (mbrPart w)).zipIdx 1).flatMap twice

/-- The offset of an entry of a valid GPT. -/
theorem Valid.entryAt_eq (h : Valid w) (hgpt : isGpt w) {i : ℕ} (hi : i < 128) :
    entryAt w i = (entryLba w + i * 128 / 512, i * 128 % 512) := by
  obtain ⟨hsize, -, -, hlba⟩ := h.gpt hgpt
  have htotal := h.total
  simp only [entryAt, hsize, Prod.mk.injEq]
  omega

/-- The children are what was registered, and the other disks are as many as before. -/
theorem Valid.rescan (h : Valid w) (disks : List Disk) (junk : Sector) :
    children w (diskRescan w disks junk) = ((parts w).map fun p => partition w p.1 p.2).take
      (maxDisks - (others w disks).length) ∧
    (others w (diskRescan w disks junk)).length = (others w disks).length := by
  have hnone : children w (others w disks) = [] := by simp [children, others]
  have hself : others w (others w disks) = others w disks := by simp [others]
  -- all that is registered is a child
  have hall : ∀ ps : List (Part × ℕ), ∀ d ∈ (ps.map fun p => partition w p.1 p.2).take
      (maxDisks - (others w disks).length), isChild w d = true := by
    intro ps d hd
    obtain ⟨p, -, rfl⟩ := mem_map.1 (mem_of_mem_take hd)
    simp [isChild, partition]
  have hregister : ∀ ps : List (Part × ℕ),
      children w (registerAll w (others w disks) ps) = (ps.map fun p => partition w p.1 p.2).take
        (maxDisks - (others w disks).length) ∧
      (others w (registerAll w (others w disks) ps)).length = (others w disks).length := by
    intro ps
    have hkept := filter_eq_self.2 (hall ps)
    have hgone : others w ((ps.map fun p => partition w p.1 p.2).take
        (maxDisks - (others w disks).length)) = [] := by
      simp only [others, filter_eq_nil_iff]
      intro d hd
      simp [hall ps d hd]
    rw [registerAll_eq]
    unfold children others at *
    simp [hnone, hself, hkept, hgone]
  unfold diskRescan
  rw [diskRemovePartitions_eq]
  split
  next hgpt =>
    obtain ⟨hsize, hnum, -, hlba⟩ := h.gpt hgpt
    unfold parseGptPartitions
    rw [parts, if_pos hgpt]
    split
    next hskip =>
      have hzero : numEntries w = 0 := by simpa [hgpt, hsize] using hskip
      simp [gptParts, hzero, hnone, hself]
    next =>
      rw [gptLoop_eq _ (.inl rfl)]
      · exact hregister _
      · intro i hi
        have hlt := mem_range.1 hi
        rw [h.entryAt_eq hgpt (by omega)]
        have htotal := h.total
        omega
  next hgpt =>
    unfold parseMbrPartitions
    rw [parts, if_neg hgpt, if_neg (by simp [h.mbr hgpt]), mbrLoop_eq]
    dsimp only
    split
    next hraw =>
      -- nothing was registered, and the disk itself is no partition
      have hnil : (List.range 4).filterMap (mbrPart w) = [] := by
        rw [← length_eq_zero_iff]
        omega
      have hmark : ∀ d, isChild w (markRaw w d) = isChild w d := by
        intro d
        unfold markRaw isChild
        split <;> rfl
      rw [hnil]
      unfold children others at *
      simp [registerAll, filter_map, Function.comp_def, hmark, hnone, hself]
    next => exact hregister _

/-! ## The parts and the entries -/

def Part.range (p : Part) : ℕ × ℕ := (p.start, p.size)

theorem Valid.gptParts_range (h : Valid w) (hgpt : isGpt w) :
    (gptParts w).map Part.range = gptEntries w := by
  obtain ⟨-, hnum, -, -⟩ := h.gpt hgpt
  have htotal := h.total
  unfold gptParts
  rw [map_filterMap, Nat.min_eq_left hnum]
  apply filterMap_congr
  intro i hi
  have hlt := mem_range.1 hi
  rw [h.entryAt_eq hgpt (by omega)]
  dsimp only
  split
  next hzero => simp [gptPart, hzero]
  next hused =>
    generalize hb : w.sector (entryLba w + i * 128 / 512) = b at *
    generalize hoff : i * 128 % 512 = off at *
    have hmem : (le b (off + 32) 8, le b (off + 40) 8 + 1 - le b (off + 32) 8) ∈ entries w := by
      subst hb hoff
      rw [entries, if_pos hgpt]
      exact mem_filterMap.2 ⟨i, hi, if_neg hused⟩
    obtain ⟨hpos, hin⟩ := h.inside _ hmem
    have hstart : le b (off + 32) 8 % 2 ^ 32 = le b (off + 32) 8 := Nat.mod_eq_of_lt (by omega)
    have hstop : le b (off + 40) 8 % 2 ^ 32 = le b (off + 40) 8 := Nat.mod_eq_of_lt (by omega)
    have hsize : (le b (off + 40) 8 + 2 ^ 32 - le b (off + 32) 8 + 1) % 2 ^ 32 =
        le b (off + 40) 8 + 1 - le b (off + 32) 8 := by omega
    unfold gptPart
    simp only [hstart, hstop, hsize]
    rw [if_neg (not_or.2 ⟨hused, Nat.ne_of_gt hpos⟩)]
    rfl

theorem Valid.mbrParts_range (h : Valid w) (hgpt : ¬ isGpt w) :
    ((List.range 4).filterMap (mbrPart w)).map Part.range = mbrEntries w := by
  rw [map_filterMap]
  apply filterMap_congr
  intro i hi
  split
  next hzero => simp [mbrPart, hzero]
  next hused =>
    have hmem : (le (w.sector 0) (446 + 16 * i + 8) 4, le (w.sector 0) (446 + 16 * i + 12) 4) ∈
        entries w := by
      rw [entries, if_neg hgpt]
      exact mem_filterMap.2 ⟨i, hi, if_neg hused⟩
    obtain ⟨hpos, hin⟩ := h.inside _ hmem
    unfold mbrPart
    rw [if_neg (by simp only [hused, false_or]; omega)]
    rfl

/-! ## The result -/

/-- Numbers below ten make different names. -/
theorem nodup_names {ps : List Part} (h : ps.length ≤ 9) :
    ((ps.zipIdx 1).map fun p => (partition w p.1 p.2).devname).Nodup := by
  have hnum : (ps.zipIdx 1).map (fun p => (partition w p.1 p.2).devname) =
      (List.range' 1 ps.length).map fun n => w.devname ++ [ofNat (48 + n)] := by
    rw [← zipIdx_map_snd 1 ps, map_map]
    rfl
  rw [hnum]
  refine List.Nodup.map_on ?_ (nodup_range' ..)
  intro a ha b hb heq
  simp only [mem_range'_1] at ha hb
  have hlast : ofNat (48 + a) = ofNat (48 + b) := by simpa using heq
  have hval := congrArg toNat hlast
  rw [toNat_ofNat_of_lt' (by simp [size]; omega),
    toNat_ofNat_of_lt' (by simp [size]; omega)] at hval
  omega

/-- The children are all that a rescan registers, each once. -/
theorem Exact.of_parts (h : Valid w) (ps : List Part)
    (hchildren : children w (diskRescan w disks junk) =
      (ps.zipIdx 1).map fun p => partition w p.1 p.2)
    (hranges : ps.map Part.range = entries w) (hlen : ps.length ≤ 9) :
    Exact w disks junk junk' := by
  have hrange : (children w (diskRescan w disks junk)).map range = entries w := by
    rw [hchildren, ← hranges, map_map]
    conv_rhs => rw [← zipIdx_map_fst 1 ps, map_map]
    rfl
  refine ⟨hrange ▸ List.Perm.refl _, ?_, ?_, ?_⟩
  · rw [hchildren, map_map]
    exact nodup_names hlen
  · intro d hd
    have hmem : range d ∈ entries w := hrange ▸ mem_map_of_mem hd
    exact (h.inside _ hmem).2
  · rw [(h.rescan _ _).1, (h.rescan disks junk).2, (h.rescan disks junk).1]

/-- With room for all partitions, a rescan finds exactly what is in the table if and only if the
table is a GPT or an MBR without partitions, or an MBR with one partition for which there is room
once only. -/
theorem rescan_exact_iff (h : Valid w)
    (hroom : (others w disks).length + (entries w).length ≤ maxDisks) :
    Exact w disks junk junk' ↔ isGpt w ∨ entries w = [] ∨
      ((entries w).length = 1 ∧ (others w disks).length + 1 = maxDisks) := by
  have hchildren := (h.rescan disks junk).1
  by_cases hgpt : isGpt w
  · have hranges := h.gptParts_range hgpt
    have hlen := congrArg List.length hranges
    have hnine := (h.gpt hgpt).2.2.1
    simp only [entries, if_pos hgpt] at hroom hnine
    rw [length_map] at hlen
    rw [parts, if_pos hgpt, take_of_length_le (by simp; omega)] at hchildren
    refine iff_of_true ?_ (.inl hgpt)
    exact .of_parts h _ hchildren (by rw [hranges, entries, if_pos hgpt]) (by omega)
  · have hranges : _ = entries w := (h.mbrParts_range hgpt).trans (if_neg hgpt).symm
    rw [parts, if_neg hgpt] at hchildren
    generalize (List.range 4).filterMap (mbrPart w) = ps at *
    rw [← hranges, length_map] at hroom ⊢
    simp only [hgpt, false_or, map_eq_nil_iff]
    generalize hcap : maxDisks - (others w disks).length = room at hchildren
    match ps with
    | [] =>
      refine iff_of_true (.of_parts h [] ?_ hranges (by simp)) (.inl rfl)
      simpa using hchildren
    | [p] =>
      constructor
      · intro hexact
        -- two partitions would have one name
        have hnames := hexact.names
        rw [hchildren] at hnames
        match room with
        | 0 => simp at hroom; omega
        | 1 => exact .inr ⟨rfl, by simp at hroom; omega⟩
        | room + 2 => simp [twice, partition] at hnames
      · rintro (hnil | ⟨-, hfull⟩)
        · cases hnil
        · obtain rfl : room = 1 := by omega
          exact .of_parts h [p] (by simpa [twice] using hchildren) hranges (by simp)
    | p :: q :: ps =>
      refine iff_of_false ?_ (by simp)
      intro hexact
      have hnames := hexact.names
      rw [hchildren] at hnames
      obtain ⟨room, rfl⟩ : ∃ n, room = n + 2 := ⟨room - 2, by simp at hroom; omega⟩
      simp [twice, partition] at hnames

/-- A disk with a GPT of four entries, two of them used and one between them empty. -/
def gptDisk : Whole where
  addr := 0
  devname := [115, 100, 97]
  totalSectors := 4096
  sector n off :=
    if n = 1 then
      if off < 8 then ofNat (0x5452415020494645 / 256 ^ off)
      else if off = 72 then 2
      else if off = 80 then 4
      else if off = 84 then 128
      else 0
    else if n = 2 then
      if off < 16 ∨ 256 ≤ off ∧ off < 272 then 0xA2
      else if off = 32 then 34
      else if off = 40 then 100
      else if off = 288 then 128
      else if off = 296 then 200
      else 0
    else 0

theorem rescan_exact_iff_gpt :
    entries gptDisk = [(34, 67), (128, 73)] ∧ Exact gptDisk [] (fun _ => 0) (fun _ => 0) := by
  have hentries : entries gptDisk = [(34, 67), (128, 73)] := by decide +kernel
  have hvalid : Valid gptDisk :=
    ⟨by decide, by rw [hentries]; decide, fun _ => by rw [hentries]; decide, by decide⟩
  exact ⟨hentries, (rescan_exact_iff hvalid (by rw [hentries]; decide)).2 (.inl (by decide))⟩

/-- A disk with one FAT32 partition in its MBR. -/
def mbrDisk : Whole where
  addr := 0
  devname := [115, 100, 97]
  totalSectors := 4096
  sector n off :=
    if n ≠ 0 then 0
    else if off = 450 then 0x0C
    else if off = 455 ∨ off = 459 then 8
    else if off = 510 then 0x55
    else if off = 511 then 0xAA
    else 0

/-- The partition is registered twice, and both are `sda1`. -/
theorem mbr_registered_twice : Valid mbrDisk ∧ entries mbrDisk = [(2048, 2048)] ∧
    (children mbrDisk (diskRescan mbrDisk [] fun _ => 0)).map (fun d => (d.devname, range d)) =
      [([115, 100, 97, 49], 2048, 2048), ([115, 100, 97, 49], 2048, 2048)] ∧
    ¬ Exact mbrDisk [] (fun _ => 0) (fun _ => 0) := by
  have hentries : entries mbrDisk = [(2048, 2048)] := by decide +kernel
  refine ⟨⟨by decide, by rw [hentries]; decide, by decide, fun _ => by decide⟩, hentries,
    by decide +kernel, fun hexact => ?_⟩
  exact absurd hexact.names (by decide +kernel)

end BoredOS.Dev.Partitions
