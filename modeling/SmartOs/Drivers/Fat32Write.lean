/-
# What writing a file does to a volume

`write_file` changes the clusters that it takes, the table, and one entry of one directory. The
clusters were free, so every chain in use keeps its links and its bytes, apart from the entry.
-/

import SmartOs.Drivers.DiskFsInvariant
import SmartOs.Drivers.Fat32Volume

namespace SmartOs.Drivers.Fat32

open CS Math Vfs List Function Disk Nat

variable {fs : Fat32Fs} {vol : Volume} {cache rest : List UInt32} {lbas : List ℕ} {dir c : UInt32}
  {base slot k : ℕ}

/-! ## Writing sectors -/

/-- The device after a sector is written. -/
def Disk.put (disk : Disk) (lba : ℕ) (buf : Sector) : Disk :=
  { disk with sectors := update disk.sectors lba buf }

/-- The device after consecutive sectors are written. -/
def Disk.overwrite (disk : Disk) (base count : ℕ) (buf : ℕ → Sector) : Disk :=
  { disk with sectors := applied disk.sectors (sectorWrites base count buf) }

variable {lba count i : ℕ} {shortName : List UInt8} {vol' : Volume}

theorem writeSector_eq_ok_iff {disk disk' : Disk} {buf : Sector} :
    writeSector lba buf disk = .ok () disk' ↔ lba < disk.capacity ∧ disk.put lba buf = disk' := by
  unfold writeSector
  split
  next inside => simp [inside, put]
  next outside => simp [outside]

variable (disk : Disk)

theorem overwrite_succ (base : ℕ) (buf : ℕ → Sector) :
    (disk.put base (buf 0)).overwrite (base + 1) count (fun i => buf (i + 1)) =
      disk.overwrite base (count + 1) buf := by
  rw [overwrite, overwrite, sectorWrites_succ]
  rfl

theorem writeRun_eq_ok_iff {disk disk' : Disk} {buf : ℕ → Sector} :
    writeRun base count buf disk = .ok () disk' ↔ (∀ lba ∈ range' base count, lba < disk.capacity) ∧
        disk.overwrite base count buf = disk' := by
  induction count generalizing base buf disk with
  | zero =>
    have unchanged : disk.overwrite base 0 buf = disk := rfl
    rw [writeRun, unchanged]
    simp
  | succ count ih =>
    rw [writeRun, bind_eq_ok_iff, range'_succ, forall_mem_cons]
    constructor
    · rintro ⟨_, next, first, rest⟩
      obtain ⟨inside, rfl⟩ := writeSector_eq_ok_iff.mp first
      obtain ⟨insides, rfl⟩ := ih.mp rest
      exact ⟨⟨inside, insides⟩, (overwrite_succ ..).symm⟩
    · rintro ⟨⟨inside, insides⟩, rfl⟩
      exact ⟨(), _, writeSector_eq_ok_iff.mpr ⟨inside, rfl⟩, ih.mpr ⟨insides, overwrite_succ ..⟩⟩

theorem sectors_overwrite (buf : ℕ → Sector) : (disk.overwrite base count buf).sectors lba =
    if base ≤ lba ∧ lba < base + count then buf (lba - base) else disk.sectors lba :=
  applied_sectorWrites ..

theorem overwrite_of_notMem (buf : ℕ → Sector) (outside : lba ∉ range' base count) :
    (disk.overwrite base count buf).sectors lba = disk.sectors lba := by
  rw [sectors_overwrite, if_neg fun inside => outside (mem_range'_1.mpr inside)]

/-! ## Taking clusters -/

namespace Fat32Fs

variable {fs : Fat32Fs}

theorem cache_length_le (fs : Fat32Fs) : fs.fatCache.length ≤ 32768 := by
  rw [fs.cache_length]
  omega

variable {c : UInt32}

theorem of_mem_freeClusters (mem : c ∈ fs.freeClusters) :
    2 ≤ c.toNat ∧ fs.fatCache[c.toNat]? = some fat32Free := by
  have small := fs.cache_length_le
  obtain ⟨i, kept, rfl⟩ := mem_map.mp mem
  obtain ⟨range, free⟩ := mem_filter.mp kept
  rw [mem_range'_1] at range
  have inside : i < fs.fatCache.length := by omega
  have bound : i < 2 ^ 32 := by omega
  rw [UInt32.toNat_ofNat_of_lt' bound]
  refine ⟨range.1, ?_⟩
  rw [← of_decide_eq_true free, getD_eq_getElem?_getD, getElem?_eq_getElem inside]
  rfl

theorem nodup_freeClusters : fs.freeClusters.Nodup := by
  have small := fs.cache_length_le
  refine Nodup.map_on ?_ (Nodup.filter _ nodup_range')
  intro i mem j member' same
  have bound {i : ℕ} (mem : i ∈ (range' 2 (fs.fatCache.length - 2)).filter
      fun i => fs.fatCache.getD i 0 = fat32Free) : i < 2 ^ 32 := by
    have := mem_range'_1.mp (mem_filter.mp mem).1
    omega
  have numbers := congrArg UInt32.toNat same
  rwa [UInt32.toNat_ofNat_of_lt' (bound mem), UInt32.toNat_ofNat_of_lt' (bound member')]
    at numbers

theorem length_freeClusters_le (fs : Fat32Fs) :
    fs.freeClusters.length ≤ fs.fatCache.length - 2 := by
  rw [freeClusters, length_map]
  exact (length_filter_le _ _).trans length_range'.le

variable {clusters : List UInt32}

theorem getElem?_chained_of_notMem (other : c ∉ clusters) :
    (chained cache clusters)[c.toNat]? = cache[c.toNat]? := by
  induction cache, clusters using chained.induct with
  | case1 cache => rfl
  | case2 cache last =>
    rw [chained, getElem?_set_ne fun same => other ?_]
    rw [UInt32.toNat_inj.mp same]
    exact mem_cons_self
  | case3 cache d e rest ih =>
    rw [chained, ih (not_mem_of_not_mem_cons other), getElem?_set_ne fun same => other ?_]
    rw [UInt32.toNat_inj.mp same]
    exact mem_cons_self

/-- A taken cluster has the next one in its entry, the last one the mark of the end. -/
theorem getElem?_chained (distinct : clusters.Nodup)
    (inside : ∀ c ∈ clusters, c.toNat < cache.length) (at_i : clusters[i]? = some c) :
    (chained cache clusters)[c.toNat]? = some (clusters[i + 1]?.getD fat32Eoc) := by
  induction cache, clusters using chained.induct generalizing i with
  | case1 cache => cases at_i
  | case2 cache last =>
    obtain ⟨rfl, rfl⟩ : i = 0 ∧ last = c := by
      cases i with
      | zero => exact ⟨rfl, Option.some.inj at_i⟩
      | succ i => cases at_i
    rw [chained, getElem?_set_self (inside last mem_cons_self)]
    rfl
  | case3 cache d e rest ih =>
    obtain ⟨notin, distinct⟩ := nodup_cons.mp distinct
    obtain ⟨first, inside⟩ := forall_mem_cons.mp inside
    cases i with
    | zero =>
      cases at_i
      rw [chained, getElem?_chained_of_notMem notin, getElem?_set_self first]
      rfl
    | succ i =>
      exact ih distinct (by simpa using inside) at_i

theorem linked_take (distinct : clusters.Nodup) (free : ∀ c ∈ clusters, c ∈ fs.freeClusters) :
    Linked (fs.take clusters).nextCluster clusters := by
  have small := fs.cache_length_le
  have range {c : UInt32} (mem : c ∈ clusters) : 2 ≤ c.toNat ∧ c.toNat < fs.fatCache.length := by
    obtain ⟨low, entry⟩ := of_mem_freeClusters (free c mem)
    exact ⟨low, (List.getElem?_eq_some_iff.mp entry).1⟩
  refine linked_of_next fun i c at_i => ?_
  have entry := getElem?_chained distinct (fun c mem => (range mem).2) at_i
  obtain ⟨low, high⟩ := range (mem_of_getElem? at_i)
  have here : ¬(c < 2 ∨ (fs.take clusters).fatCache.length ≤ c.toNat) := by
    rintro (less | more)
    · exact absurd (UInt32.lt_iff_toNat_lt.mp less) (not_lt.mpr low)
    · rw [take, length_chained] at more
      omega
  rw [nextCluster, if_neg here]
  simp only [take, getD_eq_getElem?_getD, entry]
  cases next : clusters[i + 1]? with
  | none => rfl
  | some d =>
    -- A cluster number is neither reserved nor the mark of the end.
    obtain ⟨low, high⟩ := range (mem_of_getElem? next)
    refine if_neg ?_
    simp only [Option.getD_some, UInt32.le_iff_toNat_le, UInt32.lt_iff_toNat_lt]
    have eoc : fat32Eoc.toNat = 268435448 := rfl
    have two : (2 : UInt32).toNat = 2 := rfl
    omega

theorem nextCluster_take (other : c ∉ clusters) :
    (fs.take clusters).nextCluster c = fs.nextCluster c := by
  simp [nextCluster, take, length_chained, getElem?_chained_of_notMem other]

/-! ## Writing the data -/

/-- The device after the data is written to clusters, from sector `block` of the data on. -/
def fill (fs : Fat32Fs) (data : List UInt8) : Disk → List UInt32 → (block : ℕ) → Disk
  | disk, [], _ => disk
  | disk, c :: rest, block =>
    fill fs data
      (disk.overwrite (fs.clusterToSector c) fs.spc fun s => sectorOf data (block + s)) rest
      (block + fs.spc)

variable {data : List UInt8} {disk disk' : Disk} {block : ℕ}

theorem capacity_fill (fs : Fat32Fs) (clusters : List UInt32) :
    (fs.fill data disk clusters block).capacity = disk.capacity := by
  induction clusters generalizing disk block with
  | nil => rfl
  | cons c rest ih => rw [fill, ih, overwrite]

theorem writeData_eq_ok_iff (linked : Linked fs.nextCluster (c :: rest)) :
    fs.writeData data (rest.length + 1) c block disk = .ok () disk' ↔
      (∀ lba ∈ fs.sectorsOfAll (c :: rest), lba < disk.capacity) ∧
        fs.fill data disk (c :: rest) block = disk' := by
  induction rest generalizing c disk block with
  | nil =>
    have ends : fs.nextCluster c = none := linked
    rw [sectorsOfAll, flatMap_singleton, writeData, bind_eq_ok_iff]
    simp only [ends, pure_eq_ok_iff, true_and]
    constructor
    · rintro ⟨_, next, first, rfl⟩
      exact writeRun_eq_ok_iff.mp first
    · intro first
      exact ⟨(), _, writeRun_eq_ok_iff.mpr first, rfl⟩
  | cons d rest ih =>
    obtain ⟨follows, linked⟩ := linked
    rw [sectorsOfAll, flatMap_cons, length_cons, writeData, bind_eq_ok_iff, forall_mem_append]
    simp only [follows, ih linked]
    constructor
    · rintro ⟨_, next, first, others, rfl⟩
      obtain ⟨insides, rfl⟩ := writeRun_eq_ok_iff.mp first
      exact ⟨⟨insides, others⟩, rfl⟩
    · rintro ⟨⟨insides, others⟩, rfl⟩
      exact ⟨(), _, writeRun_eq_ok_iff.mpr ⟨insides, rfl⟩, others, rfl⟩

theorem fill_of_notMem (outside : lba ∉ fs.sectorsOfAll clusters) :
    (fs.fill data disk clusters block).sectors lba = disk.sectors lba := by
  induction clusters generalizing disk block with
  | nil => rfl
  | cons c rest ih =>
    rw [sectorsOfAll, flatMap_cons, mem_append, not_or] at outside
    rw [fill, ih outside.2, overwrite_of_notMem _ _ outside.1]

theorem contents_overwrite (base : ℕ) (buf : ℕ → Sector) :
    (disk.overwrite base count buf).contents (range' base count) =
      (range count).flatMap fun s => (buf s).val := by
  rw [contents, range'_eq_map_range, flatMap_map]
  refine flatMap_congr fun s mem => ?_
  have inside := mem_range.mp mem
  rw [sectors_overwrite, if_pos (by omega), Nat.add_sub_cancel_left]

theorem contents_fill (distinct : clusters.Nodup) :
    (fs.fill data disk clusters block).contents (fs.sectorsOfAll clusters) =
      (range (clusters.length * fs.spc)).flatMap fun i => (sectorOf data (block + i)).val := by
  induction clusters generalizing disk block with
  | nil => rw [length_nil, zero_mul]; rfl
  | cons c rest ih =>
    obtain ⟨new, distinct⟩ := nodup_cons.mp distinct
    -- The later clusters leave the sectors of the first one as they are.
    have kept : ∀ lba ∈ fs.sectorsOf c, lba ∉ fs.sectorsOfAll rest := by
      intro lba mem again
      obtain ⟨d, later, member'⟩ := mem_flatMap.mp again
      exact new (eq_of_mem_sectorsOf mem member' ▸ later)
    have first : (fs.fill data disk (c :: rest) block).contents (fs.sectorsOf c) =
        (range fs.spc).flatMap fun s => (sectorOf data (block + s)).val := by
      rw [fill, contents_congr fun lba mem => fill_of_notMem (kept lba mem), sectorsOf,
        contents_overwrite]
    have split : (fs.fill data disk (c :: rest) block).contents (fs.sectorsOfAll (c :: rest)) =
        (fs.fill data disk (c :: rest) block).contents (fs.sectorsOf c) ++
          (fs.fill data disk (c :: rest) block).contents (fs.sectorsOfAll rest) := by
      rw [sectorsOfAll, flatMap_cons, contents, flatMap_append]
      rfl
    rw [split, first, fill, ih distinct, length_cons, succ_mul,
      add_comm (rest.length * fs.spc), range_add, flatMap_append, flatMap_map]
    simp [add_assoc]

end Fat32Fs

/-! ## The table and the data of a new file -/

namespace Volume

variable {vol : Volume}

/-- The volume when the data and the table are written, and no entry is. -/
def stored (vol : Volume) (data : List UInt8) (clusters : List UInt32) : Volume where
  fs := vol.fs.take clusters
  disk := ((vol.fs.take clusters).fill data vol.disk clusters 0).overwrite
    vol.fs.bpb.fatStartSector ((vol.fs.fatCache.length + 127) / 128)
    (vol.fs.take clusters).fatSector

variable {data : List UInt8} {clusters : List UInt32}

theorem sameLayout_stored : vol.SameLayout (vol.stored data clusters) :=
  ⟨rfl, Fat32Fs.capacity_fill (vol.fs.take clusters) clusters⟩

/-- The table ends before the data begins. -/
theorem not_table_of_cluster (tables : vol.fs.bpb.numFats ≠ 0)
    (mem : lba ∈ vol.fs.sectorsOf c) : lba ∉ range' vol.fs.bpb.fatStartSector
      ((vol.fs.fatCache.length + 127) / 128) := by
  have start := (Fat32Fs.mem_sectorsOf.mp mem).1
  have some : vol.fs.bpb.numFats.toNat ≠ 0 := fun zero => tables (UInt8.toNat_inj.mp zero)
  have whole : vol.fs.bpb.fatSize.toNat ≤ vol.fs.bpb.numFats.toNat * vol.fs.bpb.fatSize.toNat :=
    Nat.le_mul_of_pos_left _ (Nat.pos_of_ne_zero some)
  rw [Fat32Fs.clusterToSector, Fat32Bpb.dataStartSector] at start
  rw [mem_range'_1, vol.fs.cache_length]
  omega

theorem agreeOn_stored (tables : vol.fs.bpb.numFats ≠ 0) (other : c ∉ clusters) :
    vol.AgreeOn (vol.stored data clusters) c := by
  refine ⟨Fat32Fs.nextCluster_take other, fun lba mem => ?_⟩
  have outside : lba ∉ (vol.fs.take clusters).sectorsOfAll clusters := by
    intro inside
    obtain ⟨d, taken, member'⟩ := mem_flatMap.mp inside
    exact other (Fat32Fs.eq_of_mem_sectorsOf mem member' ▸ taken)
  rw [stored, overwrite_of_notMem _ _ (not_table_of_cluster tables mem),
    Fat32Fs.fill_of_notMem outside]

/-- The chain of the new file holds its data, filled up with zeros. -/
theorem contents_stored (tables : vol.fs.bpb.numFats ≠ 0) (distinct : clusters.Nodup) :
    (vol.stored data clusters).disk.contents (vol.fs.sectorsOfAll clusters) =
      data.take (clusters.length * vol.fs.spc * sectorSize) ++
        replicate (clusters.length * vol.fs.spc * sectorSize - data.length) 0 := by
  have kept : ∀ lba ∈ vol.fs.sectorsOfAll clusters, (vol.stored data clusters).disk.sectors lba =
      ((vol.fs.take clusters).fill data vol.disk clusters 0).sectors lba := by
    intro lba mem
    obtain ⟨c, -, mem⟩ := mem_flatMap.mp mem
    exact overwrite_of_notMem _ _ (not_table_of_cluster tables mem)
  have filled : ((vol.fs.take clusters).fill data vol.disk clusters 0).contents
      (vol.fs.sectorsOfAll clusters) = (range (clusters.length * vol.fs.spc)).flatMap
        fun i => (sectorOf data (0 + i)).val :=
    Fat32Fs.contents_fill distinct
  rw [contents_congr kept, filled]
  simp only [zero_add]
  exact flatMap_sectorOf data _

end Volume

/-! ## Entries of a directory -/

def fileEntry (shortName : List UInt8) (start fileSize : UInt32) : DirEntry where
  name := shortName
  attr := 0x20
  clusterHi := UInt16.ofNat (start.toNat / 2 ^ 16)
  clusterLo := UInt16.ofNat start.toNat
  fileSize := fileSize

theorem length_toShortName (name : FilePath) : (toShortName name).length = 11 := by
  rw [toShortName]
  split <;> simp only [padded, length_append, length_replicate, length_take] <;> omega

theorem length_entryBytes (length : shortName.length = 11) (start fileSize : UInt32) :
    (entryBytes shortName start fileSize).length = 32 := by
  simp [entryBytes, length]

theorem uint16_ofNat_ofLeBytes (n : ℕ) :
    UInt16.ofNat (ofLeBytes [UInt8.ofNat n, UInt8.ofNat (n / 2 ^ 8)]) = UInt16.ofNat n := by
  refine UInt16.toNat_inj.mp ?_
  simp only [ofLeBytes_cons, UInt16.toNat_ofNat', UInt8.toNat_ofNat']
  omega

theorem parseDirEntry_entryBytes (length : shortName.length = 11) (start fileSize : UInt32) :
    parseDirEntry (entryBytes shortName start fileSize) = fileEntry shortName start fileSize := by
  have shape : entryBytes shortName start fileSize = shortName ++ ([0x20] ++ (replicate 8 0 ++
      ([UInt8.ofNat (start.toNat / 2 ^ 16), UInt8.ofNat (start.toNat / 2 ^ 24)] ++
        (replicate 4 0 ++ ([UInt8.ofNat start.toNat, UInt8.ofNat (start.toNat / 2 ^ 8)] ++
          toLeBytes 4 fileSize.toNat))))) := by
    simp [entryBytes, cons_append]
  have attr : (entryBytes shortName start fileSize).getD 11 0 = 0x20 := by
    rw [shape, getD_eq_getElem?_getD, getElem?_append_right length.le, length]
    rfl
  have upper : start.toNat / 2 ^ 24 = start.toNat / 2 ^ 16 / 2 ^ 8 := by
    rw [Nat.div_div_eq_div_mul, ← pow_add]
  have last : field 0 4 (toLeBytes 4 fileSize.toNat) = toLeBytes 4 fileSize.toNat := by
    rw [field, drop_zero, take_of_length_le (toLeBytes_length ..).le]
  rw [parseDirEntry, attr, shape]
  simp (disch := simp [length]) only [field_append, field_zero_append, length,
    length_replicate, length_cons, length_nil, reduceAdd, reduceSub, last,
    upper, uint16_ofNat_ofLeBytes, uint32_ofNat_ofLeBytes]
  rfl

theorem startCluster_fileEntry (shortName : List UInt8) (start fileSize : UInt32) :
    (fileEntry shortName start fileSize).startCluster = start := by
  refine UInt32.toNat_inj.mp ?_
  have bound := start.toNat_lt
  simp only [DirEntry.startCluster, fileEntry, UInt32.toNat_or, UInt32.toNat_shiftLeft,
    UInt16.toNat_toUInt32, UInt16.toNat_ofNat']
  rw [show (16 : UInt32).toNat % 32 = 16 from rfl, mod_eq_of_lt,
    ← shiftLeft_add_eq_or_of_lt (by omega)]
  · omega
  · rw [shiftLeft_eq]
    omega

theorem getElem?_dirSlots (raw : List UInt8) (k : ℕ) : (dirSlots raw)[k]? =
    if k < raw.length / 32 then some (parseDirEntry (field (k * 32) 32 raw)) else none := by
  rw [dirSlots, getElem?_map]
  split
  next inside => rw [getElem?_range inside, Option.map_some]
  next outside => rw [getElem?_eq_none (by simpa using outside), Option.map_none]

/-- Slot `k` of a directory is in its sector `k / 16`. -/
theorem field_contents {disk : Disk} (at_k : lbas[k / 16]? = some lba) :
    field (k * 32) 32 (disk.contents lbas) = field (k % 16 * 32) 32 (disk.sectors lba).val := by
  have widths : ∀ part ∈ lbas.map fun lba => (disk.sectors lba).val, part.length = 512 := by
    intro part mem
    obtain ⟨lba, -, rfl⟩ := mem_map.mp mem
    exact (disk.sectors lba).property
  have sector := field_flatten widths
    (by rw [getElem?_map, at_k]; rfl : _ = some (disk.sectors lba).val)
  rw [← sector, field_field (by omega)]
  congr 1
  omega

theorem field_patch {sec : Sector} {j : ℕ} {bytes : List UInt8} (length : bytes.length = 32)
    (inside : j < 16) : field (j * 32) 32 (patch sec (i * 32) bytes).val =
      if j = i then bytes else field (j * 32) 32 sec.val := by
  have byte (n : ℕ) (here : n < 32) : (field (j * 32) 32 (patch sec (i * 32) bytes).val)[n]? =
      some (if j = i then bytes.getD n 0 else sec.val.getD (j * 32 + n) 0) := by
    rw [field, patch, getElem?_take, if_pos here, getElem?_drop, getElem?_mapIdx,
      getElem?_eq_getElem (by omega), Option.map_some]
    split
    next same => rw [if_pos (by omega), show j * 32 + n - i * 32 = n by omega]
    next other =>
      rw [if_neg (by omega), getD_eq_getElem?_getD, getElem?_eq_getElem (by omega),
        Option.getD_some]
  refine ext_getElem? fun n => ?_
  rcases lt_or_ge n 32 with here | behind
  · rw [byte n here]
    split
    next => rw [getD_eq_getElem?_getD, getElem?_eq_getElem (by omega), Option.getD_some]
    next =>
      rw [field, getElem?_take, if_pos here, getElem?_drop,
        getD_eq_getElem?_getD, getElem?_eq_getElem (by omega), Option.getD_some]
  · have ends {xs : List UInt8} : (field (j * 32) 32 xs)[n]? = none := by
      rw [field, getElem?_take, if_neg (not_lt.mpr behind)]
    rw [ends]
    split
    next => rw [getElem?_eq_none (by omega)]
    next => exact ends.symm

/-- The place for an entry is free or has its name, and the directory does not end before it. -/
theorem findSlot_split {slots : List DirEntry} {target : Option ℕ}
    (found : findSlot shortName slots i target = some k) :
    target = some k ∨ ∃ front e back, slots = front ++ e :: back ∧ k = i + front.length ∧
      (e.isFree ∨ e.name = shortName) ∧ ∀ e' ∈ front, e'.mark ≠ 0 := by
  have place {target : Option ℕ} {i : ℕ} (first : target.or (some i) = some k) :
      target = some k ∨ k = i := by
    cases target with
    | none => exact .inr (Option.some.inj first).symm
    | some t => exact .inl first
  induction slots generalizing i target with
  | nil => exact .inl found
  | cons e rest ih =>
    rw [findSlot] at found
    split at found
    next ended =>
      refine (place found).imp_right fun here => ⟨[], e, rest, rfl, here, .inl ?_, by simp⟩
      simp [DirEntry.isFree, ended]
    next going =>
      split at found
      next free =>
        rcases ih found with first | ⟨front, e', back, rfl, rfl, fits, before⟩
        · refine (place first).imp_right fun here => ⟨[], e, rest, rfl, here, .inl ?_, by simp⟩
          simp [DirEntry.isFree, free]
        · refine .inr ⟨e :: front, e', back, rfl, by rw [length_cons]; omega, fits, ?_⟩
          exact forall_mem_cons.mpr ⟨going, before⟩
      next =>
        split at found
        next same =>
          exact .inr ⟨[], e, rest, rfl, (Option.some.inj found).symm, .inr same, by simp⟩
        next =>
          rcases ih found with first | ⟨front, e', back, rfl, rfl, fits, before⟩
          · exact .inl first
          · refine .inr ⟨e :: front, e', back, rfl, by rw [length_cons]; omega, fits, ?_⟩
            exact forall_mem_cons.mpr ⟨going, before⟩

theorem Fat32Fs.walk_of_linked {d : UInt32}
    (linked : Linked fs.nextCluster (c :: rest)) (at_i : (c :: rest)[i]? = some d) :
    fs.walk i c = .ok d := by
  induction i generalizing c rest with
  | zero =>
    cases at_i
    rfl
  | succ i ih =>
    cases rest with
    | nil => cases at_i
    | cons next rest =>
      rw [walk, linked.1]
      exact ih linked.2 at_i

/-- An entry written to its sector is put into its slot of the directory. -/
theorem dirSlots_patch (distinct : lbas.Nodup)
    (at_slot : lbas[slot / 16]? = some lba) (length : shortName.length = 11)
    (start fileSize : UInt32) : dirSlots ((disk.put lba (patch (disk.sectors lba) (slot % 16 * 32)
        (entryBytes shortName start fileSize))).contents lbas) =
      (dirSlots (disk.contents lbas)).set slot (fileEntry shortName start fileSize) := by
  refine ext_getElem? fun k => ?_
  rw [getElem?_set, getElem?_dirSlots, length_contents]
  have slots : (dirSlots (disk.contents lbas)).length = lbas.length * sectorSize / 32 := by
    rw [dirSlots, length_map, length_range, length_contents]
  rw [slots, getElem?_dirSlots, length_contents]
  rcases lt_or_ge k (lbas.length * sectorSize / 32) with inside | outside
  · have sector : k / 16 < lbas.length := by
      rw [sectorSize] at inside
      omega
    rw [if_pos inside, if_pos inside, field_contents (getElem?_eq_getElem sector),
      field_contents (getElem?_eq_getElem sector)]
    obtain ⟨first, rfl⟩ := List.getElem?_eq_some_iff.mp at_slot
    by_cases same : slot / 16 = k / 16
    · simp only [← same, put, update_self]
      rw [field_patch (length_entryBytes length ..) (mod_lt _ (by omega))]
      by_cases here : slot = k
      · subst here
        rw [if_pos rfl, if_pos rfl, if_pos inside, parseDirEntry_entryBytes length]
      · rw [if_neg (by omega), if_neg here]
    · have apart : lbas[k / 16] ≠ lbas[slot / 16] := fun equal =>
        same ((distinct.getElem_inj_iff.mp equal).symm)
      rw [if_neg fun here : slot = k => same (by rw [here])]
      simp [put, update_of_ne apart]
  · rw [if_neg (not_lt.mpr outside), if_neg (not_lt.mpr outside)]
    split
    next here =>
      subst here
      rw [if_neg (not_lt.mpr outside)]
    next => rfl

/-- The cluster, the sector within it and the offset within that of a slot. -/
theorem slot_place (slot spc : ℕ) : slot * 32 / (spc * sectorSize) = slot / 16 / spc ∧
    slot * 32 % (spc * sectorSize) / sectorSize = slot / 16 % spc ∧
    slot * 32 % (spc * sectorSize) % sectorSize = slot % 16 * 32 := by
  have width : spc * sectorSize = 32 * (16 * spc) := by
    rw [sectorSize]
    omega
  refine ⟨?_, ?_, ?_⟩
  · rw [width, mul_comm slot, Nat.mul_div_mul_left _ _ (by omega), ← Nat.div_div_eq_div_mul]
  · rw [width, mul_comm slot, mul_mod_mul_left, mod_mul, sectorSize]
    omega
  · rw [sectorSize, mod_mul_left_mod]
    omega

theorem Fat32Fs.sector_of_slot {disk : Disk} {raw : List UInt8}
    (read : fs.readChain disk dir = .ok raw)
    (found : findSlot shortName (dirSlots raw) 0 none = some slot) :
    ∃ rest cluster, Linked fs.nextCluster (dir :: rest) ∧
      fs.walk (slot / 16 / fs.spc) dir = .ok cluster ∧ (fs.sectorsOfAll (dir :: rest))[slot / 16]? =
        some (fs.clusterToSector cluster + slot / 16 % fs.spc) ∧
      fs.clusterToSector cluster + slot / 16 % fs.spc < disk.capacity := by
  obtain ⟨rest, linked, -, inside, rfl⟩ := readChainFrom_eq_ok_iff.mp read
  rcases findSlot_split found with impossible | ⟨front, e, back, split, place, -, -⟩
  · cases impossible
  have slots : slot < (dirSlots (disk.contents (fs.sectorsOfAll (dir :: rest)))).length := by
    rw [split, length_append, length_cons]
    omega
  rw [dirSlots, length_map, length_range, length_contents, length_sectorsOfAll, sectorSize] at slots
  have sector : slot / 16 < (dir :: rest).length * fs.spc := by omega
  have number : slot / 16 / fs.spc < (dir :: rest).length :=
    Nat.div_lt_of_lt_mul (by rwa [mul_comm])
  have at_slot := getElem?_sectorsOfAll (getElem?_eq_getElem number)
  exact ⟨rest, _, linked, walk_of_linked linked (getElem?_eq_getElem number), at_slot,
    inside _ (mem_of_getElem? at_slot)⟩

/-- `update_or_create_entry` succeeds if the directory can be read and has a place, and then puts
the entry there. -/
theorem Fat32Fs.updateOrCreateEntry_eq_ok_iff {disk disk' : Disk}
    {name : FilePath} {start fileSize : UInt32} :
    fs.updateOrCreateEntry dir name start fileSize disk = .ok () disk' ↔
      ∃ raw slot rest lba, fs.readChain disk dir = .ok raw ∧
        findSlot (toShortName name) (dirSlots raw) 0 none = some slot ∧
        Linked fs.nextCluster (dir :: rest) ∧
        (fs.sectorsOfAll (dir :: rest))[slot / 16]? = some lba ∧
        disk.put lba (patch (disk.sectors lba) (slot % 16 * 32)
          (entryBytes (toShortName name) start fileSize)) = disk' := by
  rw [updateOrCreateEntry, get_bind_apply]
  constructor
  · intro success
    cases read : fs.readChain disk dir with
    | error e => rw [read] at success; cases success
    | ok raw =>
      rw [read, ofExcept_ok_bind] at success
      cases found : findSlot (toShortName name) (dirSlots raw) 0 none with
      | none => rw [found] at success; cases success
      | some slot =>
        obtain ⟨rest, cluster, linked, walked, at_slot, inside⟩ := sector_of_slot read found
        rw [found, orThrow_some_bind] at success
        simp only [slot_place, walked, ofExcept_ok_bind,
          readSector_eq_ok_iff.mpr ⟨inside, rfl⟩] at success
        exact ⟨raw, slot, rest, _, rfl, found, linked, at_slot,
          (writeSector_eq_ok_iff.mp success).2⟩
  · rintro ⟨raw, slot, rest, lba, read, found, linked, at_slot, rfl⟩
    obtain ⟨rest', cluster, linked', walked, at_slot', inside⟩ := sector_of_slot read found
    obtain rfl := linked.unique linked'
    obtain rfl := Option.some.inj (at_slot.symm.trans at_slot')
    simp only [read, found, slot_place, walked, ofExcept_ok_bind, orThrow_some_bind,
      readSector_eq_ok_iff.mpr ⟨inside, rfl⟩]
    exact writeSector_eq_ok_iff.mpr ⟨inside, rfl⟩

/-! ## Writing a file -/

theorem onDisk_eq_ok_iff {α : Type} {x : EStateM String Disk α} {a : α} :
    onDisk x vol = .ok a vol' ↔ ∃ disk', x vol.disk = .ok a disk' ∧ ⟨vol.fs, disk'⟩ = vol' := by
  unfold onDisk
  cases x vol.disk with
  | ok b disk =>
    simp only [EStateM.Result.ok.injEq]
    exact ⟨fun ⟨value, state⟩ => ⟨disk, ⟨value, rfl⟩, state⟩,
      fun ⟨_, ⟨value, same⟩, state⟩ => ⟨value, same ▸ state⟩⟩
  | error e disk => simp

theorem allocClusters_eq_ok_iff {start : UInt32} :
    allocClusters count vol = .ok start vol' ↔ ∃ rest,
      vol.fs.freeClusters.take count = start :: rest ∧ rest.length + 1 = count ∧
        ⟨vol.fs.take (start :: rest), vol.disk⟩ = vol' := by
  unfold allocClusters
  have bound := length_take_le count vol.fs.freeClusters
  cases taken : vol.fs.freeClusters.take count with
  | nil => simp
  | cons first rest =>
    rw [taken, length_cons] at bound
    simp only [length_cons]
    split
    next few =>
      refine iff_of_false (by simp) ?_
      rintro ⟨others, same, enough, -⟩
      cases same
      omega
    next enough =>
      simp only [EStateM.Result.ok.injEq, cons.injEq]
      constructor
      · rintro ⟨rfl, rfl⟩
        exact ⟨rest, ⟨rfl, rfl⟩, by omega, rfl⟩
      · rintro ⟨_, ⟨rfl, rfl⟩, -, rfl⟩
        exact ⟨rfl, rfl⟩

/-- `write_file` succeeds if there are enough free clusters, the device has the sectors of the data
and the table, and the entry can be written. -/
theorem writeFile_eq_ok_iff {path : FilePath} {data : List UInt8} :
    writeFile path data vol = .ok () vol' ↔ ∃ start rest dir disk',
      vol.fs.freeClusters.take (vol.fs.clustersNeeded data) = start :: rest ∧
      rest.length + 1 = vol.fs.clustersNeeded data ∧
      (∀ lba ∈ vol.fs.sectorsOfAll (start :: rest), lba < vol.disk.capacity) ∧
      (∀ lba ∈ range' vol.fs.bpb.fatStartSector ((vol.fs.fatCache.length + 127) / 128),
        lba < vol.disk.capacity) ∧ (vol.stored data (start :: rest)).dirCluster path = .ok dir ∧
      (vol.fs.take (start :: rest)).updateOrCreateEntry dir (splitPath path).2 start
        (UInt32.ofNat data.length) (vol.stored data (start :: rest)).disk = .ok () disk' ∧
      ⟨vol.fs.take (start :: rest), disk'⟩ = vol' := by
  have linked {start : UInt32} {rest : List UInt32} {count : ℕ}
      (taken : vol.fs.freeClusters.take count = start :: rest) :
      Linked (vol.fs.take (start :: rest)).nextCluster (start :: rest) :=
    taken ▸ Fat32Fs.linked_take (Fat32Fs.nodup_freeClusters.sublist (take_sublist _ _))
      fun c mem => mem_of_mem_take mem
  have length (clusters : List UInt32) :
      (vol.fs.take clusters).fatCache.length = vol.fs.fatCache.length :=
    Fat32Fs.length_chained ..
  rw [writeFile, get_bind_apply, bind_eq_ok_iff]
  constructor
  · rintro ⟨start, vol₁, allocated, afterwards⟩
    obtain ⟨rest, taken, enough, rfl⟩ := allocClusters_eq_ok_iff.mp allocated
    rw [get_bind_apply] at afterwards
    obtain ⟨⟨⟩, vol₂, first, afterwards⟩ := bind_eq_ok_iff.mp afterwards
    obtain ⟨disk₂, filled, rfl⟩ := onDisk_eq_ok_iff.mp first
    rw [← enough] at filled
    obtain ⟨inside, rfl⟩ := (Fat32Fs.writeData_eq_ok_iff (linked taken)).mp filled
    obtain ⟨⟨⟩, vol₃, second, afterwards⟩ := bind_eq_ok_iff.mp afterwards
    obtain ⟨disk₃, table, rfl⟩ := onDisk_eq_ok_iff.mp second
    obtain ⟨inside', rfl⟩ := writeRun_eq_ok_iff.mp table
    rw [Fat32Fs.capacity_fill, length] at inside'
    rw [get_bind_apply, length] at afterwards
    obtain ⟨dir, vol₄, third, last⟩ := bind_eq_ok_iff.mp afterwards
    obtain ⟨found, rfl⟩ := ofExcept_eq_ok_iff.mp third
    obtain ⟨disk', entered, rfl⟩ := onDisk_eq_ok_iff.mp last
    exact ⟨start, rest, dir, disk', taken, enough, inside, inside', found, entered, rfl⟩
  · rintro ⟨start, rest, dir, disk', taken, enough, inside, inside', found, entered, rfl⟩
    refine ⟨start, _, allocClusters_eq_ok_iff.mpr ⟨rest, taken, enough, rfl⟩, ?_⟩
    have filled : (vol.fs.take (start :: rest)).writeData data (vol.fs.clustersNeeded data) start 0
        vol.disk = .ok () ((vol.fs.take (start :: rest)).fill data vol.disk (start :: rest) 0) := by
      rw [← enough]
      exact (Fat32Fs.writeData_eq_ok_iff (linked taken)).mpr ⟨inside, rfl⟩
    have table : (vol.fs.take (start :: rest)).updateFatOnDisk
        ((vol.fs.take (start :: rest)).fill data vol.disk (start :: rest) 0) =
          .ok () (vol.stored data (start :: rest)).disk := by
      rw [Fat32Fs.updateFatOnDisk, length]
      exact writeRun_eq_ok_iff.mpr ⟨by rwa [Fat32Fs.capacity_fill], rfl⟩
    rw [get_bind_apply]
    refine bind_eq_ok_iff.mpr ⟨(), _, onDisk_eq_ok_iff.mpr ⟨_, filled, rfl⟩, ?_⟩
    refine bind_eq_ok_iff.mpr ⟨(), _, onDisk_eq_ok_iff.mpr ⟨_, table, rfl⟩, ?_⟩
    rw [get_bind_apply, bind_eq_ok_iff]
    exact ⟨dir, _, ofExcept_eq_ok_iff.mpr ⟨found, rfl⟩, onDisk_eq_ok_iff.mpr ⟨disk', entered, rfl⟩⟩

end SmartOs.Drivers.Fat32
