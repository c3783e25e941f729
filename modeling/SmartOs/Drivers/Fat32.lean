/-
# The FAT32 driver

`Fat32Fs` of `drivers/fat32.rs`. The file allocation table is held in memory, up to 256 of its
sectors, and gives every cluster its successor. A directory is a chain of clusters with 32-byte
entries, each with a name of eight and three characters and the first cluster of a file or of a
directory.

`write_file` takes the first free clusters, writes the data and the table, and then puts an entry
into the directory. The clusters that the file had before stay taken.
-/

import SmartOs.Drivers.DiskFs
import SmartOs.Vfs.RamFs

namespace SmartOs.Drivers.Fat32

open CS Math Vfs

def fat32Eoc : UInt32 := 0x0FFFFFF8
def fat32Free : UInt32 := 0
def attrVolumeId : UInt8 := 0x08
def attrDirectory : UInt8 := 0x10
def attrLongName : UInt8 := 0x0F

/-! ## The block device -/

/-- The device that `virtio_blk` drives: it serves every sector below its capacity. -/
structure Disk where
  capacity : ℕ
  sectors : ℕ → Sector

def readSector (disk : Disk) (lba : ℕ) : Except String Sector :=
  if lba < disk.capacity then .ok (disk.sectors lba) else .error "LBA out of range"

def writeSector (lba : ℕ) (buf : Sector) : EStateM String Disk Unit := fun disk =>
  if lba < disk.capacity then
    .ok () { disk with sectors := Function.update disk.sectors lba buf }
  else .error "LBA out of range" disk

def readRun (disk : Disk) : (base count : ℕ) → Except String (List UInt8)
  | _, 0 => .ok []
  | base, count + 1 => do
    let sec ← readSector disk base
    let rest ← readRun disk (base + 1) count
    pure (sec.val ++ rest)

def writeRun : (base count : ℕ) → (ℕ → Sector) → EStateM String Disk Unit
  | _, 0, _ => pure ()
  | base, count + 1, buf => do
    writeSector base (buf 0)
    writeRun (base + 1) count fun i => buf (i + 1)

/-! ## Mounting -/

structure Fat32Bpb where
  bytesPerSector : UInt16
  sectorsPerCluster : UInt8
  reservedSectors : UInt16
  numFats : UInt8
  fatSize : UInt32
  rootCluster : UInt32

/-- A mounted file system. Mounting checks the size of a cluster and loads the table. -/
structure Fat32Fs where
  bpb : Fat32Bpb
  fatCache : List UInt32
  cluster_ne_zero : bpb.sectorsPerCluster ≠ 0
  cache_length : fatCache.length = min bpb.fatSize.toNat 256 * 128

def Fat32Bpb.fatStartSector (bpb : Fat32Bpb) : ℕ := bpb.reservedSectors.toNat

def Fat32Bpb.dataStartSector (bpb : Fat32Bpb) : ℕ :=
  bpb.fatStartSector + bpb.numFats.toNat * bpb.fatSize.toNat

/-! ## Chains of clusters -/

namespace Fat32Fs

variable (fs : Fat32Fs)

/-- Sectors in a cluster. -/
def spc : ℕ := fs.bpb.sectorsPerCluster.toNat

def nextCluster (cluster : UInt32) : Option UInt32 :=
  if cluster < 2 ∨ fs.fatCache.length ≤ cluster.toNat then none
  else
    let next := fs.fatCache.getD cluster.toNat 0
    if fat32Eoc ≤ next ∨ next < 2 then none else some next

/-- The subtraction wraps around for the clusters 0 and 1. -/
def clusterToSector (cluster : UInt32) : ℕ :=
  fs.bpb.dataStartSector + (cluster - 2).toNat * fs.spc

/-- Read a chain from a cluster on, of which `left` more successors are followed. -/
def readChainFrom (disk : Disk) : (left : ℕ) → UInt32 → Except String (List UInt8)
  | 0, cluster => do
    let buf ← readRun disk (fs.clusterToSector cluster) fs.spc
    match fs.nextCluster cluster with
    | none => pure buf
    | some _ => .error "FAT chain too long"
  | left + 1, cluster => do
    let buf ← readRun disk (fs.clusterToSector cluster) fs.spc
    match fs.nextCluster cluster with
    | none => pure buf
    | some next => do
      let rest ← readChainFrom disk left next
      pure (buf ++ rest)

def readChain (disk : Disk) (start : UInt32) : Except String (List UInt8) :=
  fs.readChainFrom disk 65536 start

end Fat32Fs

/-! ## Names -/

def toUppercaseSimple (name : FilePath) : FilePath := name.map Char.toUpper

/-- The bytes, filled up with blanks. -/
def padded (width : ℕ) (bytes : List UInt8) : List UInt8 :=
  bytes ++ List.replicate (width - bytes.length) 0x20

/-- What does not fit into eight and three bytes is cut off. -/
def toShortName (name : FilePath) : List UInt8 :=
  let bytes := (toUppercaseSimple name).flatMap String.utf8EncodeChar
  match bytes.findIdx? (· = 0x2E) with
  | some dotPos =>
    padded 8 (bytes.take (min dotPos 8)) ++ padded 3 ((bytes.drop (dotPos + 1)).take 3)
  | none => padded 11 (bytes.take 8)

/-- The characters up to the first blank, in lower case. -/
def shortPart (raw : List UInt8) : FilePath :=
  (raw.takeWhile (· ≠ 0x20)).map fun byte => (Char.ofNat byte.toNat).toLower

def fromShortName (raw : List UInt8) : FilePath :=
  let namePart := shortPart (raw.take 8)
  let extPart := shortPart ((raw.drop 8).take 3)
  if extPart = [] then namePart else namePart ++ '.' :: extPart

/-- The path before the last slash, and the name behind it. -/
def splitPath (path : FilePath) : FilePath × FilePath :=
  ((beforeLastSlash path).getD [], pathFilename path)

/-! ## Directories -/

structure DirEntry where
  name : List UInt8
  attr : UInt8
  clusterHi : UInt16
  clusterLo : UInt16
  fileSize : UInt32
  deriving DecidableEq

namespace DirEntry

variable (entry : DirEntry)

def startCluster : UInt32 := entry.clusterHi.toUInt32 <<< 16 ||| entry.clusterLo.toUInt32

/-- The first byte of the name, which also marks free entries and the end of a directory. -/
def mark : UInt8 := entry.name.headD 0

def isFree : Bool := entry.mark = 0x00 || entry.mark = 0xE5

def isLongName : Bool := entry.attr = attrLongName

def isVolumeId : Bool := entry.attr &&& attrVolumeId ≠ 0 && entry.attr &&& attrDirectory = 0

def isDirectory : Bool := entry.attr &&& attrDirectory ≠ 0

end DirEntry

def parseDirEntry (data : List UInt8) : DirEntry where
  name := field 0 11 data
  attr := data.getD 11 0
  clusterHi := UInt16.ofNat (ofLeBytes (field 20 2 data))
  clusterLo := UInt16.ofNat (ofLeBytes (field 26 2 data))
  fileSize := UInt32.ofNat (ofLeBytes (field 28 4 data))

/-- The entries of a directory with these bytes, used or not. -/
def dirSlots (raw : List UInt8) : List DirEntry :=
  (List.range (raw.length / 32)).map fun i => parseDirEntry (field (i * 32) 32 raw)

/-- The entries up to the end of the directory that name files and directories. -/
def listed : List DirEntry → List (FilePath × DirEntry)
  | [] => []
  | entry :: rest =>
    if entry.mark = 0x00 then []
    else if entry.isFree || entry.isLongName || entry.isVolumeId then listed rest
    else if entry.mark = 0x2E then listed rest
    else (fromShortName entry.name, entry) :: listed rest

/-- The first entry that reads as the target and is, or is not, a directory. -/
def lookup (target : FilePath) (directory : Bool) (entries : List (FilePath × DirEntry)) :
    Option DirEntry :=
  (entries.find? fun item =>
    toUppercaseSimple item.1 = toUppercaseSimple target && item.2.isDirectory = directory).map
      Prod.snd

/-- The place for an entry: that of the same name, else the first free one. `target` is the free
place found so far. -/
def findSlot (shortName : List UInt8) : List DirEntry → ℕ → Option ℕ → Option ℕ
  | [], _, target => target
  | entry :: rest, i, target =>
    if entry.mark = 0x00 then target.or (some i)
    else if entry.mark = 0xE5 then findSlot shortName rest (i + 1) (target.or (some i))
    else if entry.name = shortName then some i
    else findSlot shortName rest (i + 1) target

def entryBytes (shortName : List UInt8) (start fileSize : UInt32) : List UInt8 :=
  shortName ++ (0x20 :: List.replicate 8 0) ++
    [UInt8.ofNat (start.toNat / 2 ^ 16), UInt8.ofNat (start.toNat / 2 ^ 24)] ++
    List.replicate 4 0 ++ [UInt8.ofNat start.toNat, UInt8.ofNat (start.toNat / 2 ^ 8)] ++
    toLeBytes 4 fileSize.toNat

/-- The sector with the bytes copied into it. -/
def patch (sec : Sector) (offset : ℕ) (bytes : List UInt8) : Sector :=
  ⟨sec.val.mapIdx fun i byte =>
    if offset ≤ i ∧ i < offset + bytes.length then bytes.getD (i - offset) 0 else byte, by
    rw [List.length_mapIdx, sec.property]⟩

/-! ## Reading -/

/-- The mounted file system and its device. -/
structure Volume where
  fs : Fat32Fs
  disk : Disk

namespace Volume

variable (vol : Volume)

def readChain (start : UInt32) : Except String (List UInt8) := vol.fs.readChain vol.disk start

def readDirEntries (dirCluster : UInt32) : Except String (List (FilePath × DirEntry)) := do
  let raw ← vol.readChain dirCluster
  pure (listed (dirSlots raw))

/-- The directory of a name within a directory. -/
def enter (cluster : UInt32) (part : FilePath) : Except String UInt32 := do
  let entries ← vol.readDirEntries cluster
  match lookup part true entries with
  | some entry => pure entry.startCluster
  | none => .error "Directory not found"

def findDirCluster (path : FilePath) : Except String UInt32 :=
  ((path.splitOn '/').filter (· ≠ [])).foldlM vol.enter vol.fs.bpb.rootCluster

/-- The directory that a path's last component is in. -/
def dirCluster (path : FilePath) : Except String UInt32 :=
  if (splitPath path).1 = [] then .ok vol.fs.bpb.rootCluster
  else vol.findDirCluster (splitPath path).1

/-- The bytes of the file that an entry is for. -/
def fileBytes (entry : DirEntry) : Except String (List UInt8) := do
  let data ← vol.readChain entry.startCluster
  pure (data.take entry.fileSize.toNat)

def readFile (path : FilePath) : Except String (List UInt8) := do
  let dir ← vol.dirCluster path
  let entries ← vol.readDirEntries dir
  match lookup (splitPath path).2 false entries with
  | some entry => vol.fileBytes entry
  | none => .error "File not found"

end Volume

/-! ## Writing -/

namespace Fat32Fs

variable (fs : Fat32Fs)

/-- The free clusters in the loaded part of the table, in order. -/
def freeClusters : List UInt32 :=
  ((List.range' 2 (fs.fatCache.length - 2)).filter fun i =>
    fs.fatCache.getD i 0 = fat32Free).map UInt32.ofNat

/-- The table with the clusters made into a chain. -/
def chained : List UInt32 → List UInt32 → List UInt32
  | cache, [] => cache
  | cache, [last] => cache.set last.toNat fat32Eoc
  | cache, c :: d :: rest => chained (cache.set c.toNat d) (d :: rest)

theorem length_chained (cache clusters : List UInt32) :
    (chained cache clusters).length = cache.length := by
  induction cache, clusters using chained.induct with
  | case1 cache => rfl
  | case2 cache last => rw [chained, List.length_set]
  | case3 cache c d rest ih => rw [chained, ih, List.length_set]

/-- The file system once the clusters are taken. -/
def take (clusters : List UInt32) : Fat32Fs :=
  { fs with
    fatCache := chained fs.fatCache clusters
    cache_length := (length_chained _ _).trans fs.cache_length }

/-- Write the data to a chain of `count` clusters, from sector `block` of the data on. -/
def writeData (data : List UInt8) : (count : ℕ) → UInt32 → (block : ℕ) → EStateM String Disk Unit
  | 0, _, _ => pure ()
  | count + 1, cluster, block => do
    writeRun (fs.clusterToSector cluster) fs.spc fun s => sectorOf data (block + s)
    match fs.nextCluster cluster with
    | some next => writeData data count next (block + fs.spc)
    | none => pure ()

/-- A sector of the table. -/
def fatSector (s : ℕ) : Sector :=
  ⟨(List.range 128).flatMap fun i => toLeBytes 4 (fs.fatCache.getD (s * 128 + i) 0).toNat, by
    simp [List.length_flatMap]⟩

def updateFatOnDisk : EStateM String Disk Unit :=
  writeRun fs.bpb.fatStartSector ((fs.fatCache.length + 127) / 128) fs.fatSector

/-- The cluster behind `count` successors of a cluster. -/
def walk : (count : ℕ) → UInt32 → Except String UInt32
  | 0, cluster => .ok cluster
  | count + 1, cluster =>
    match fs.nextCluster cluster with
    | none => .error "Dir chain broken"
    | some next => walk count next

def updateOrCreateEntry (dirCluster : UInt32) (filename : FilePath) (start fileSize : UInt32) :
    EStateM String Disk Unit := do
  let disk ← get
  let raw ← MonadExcept.ofExcept (fs.readChain disk dirCluster)
  let slot ← orThrow (findSlot (toShortName filename) (dirSlots raw) 0 none) "Directory full"
  let offset := slot * 32
  let clusterBytes := fs.spc * sectorSize
  let cluster ← MonadExcept.ofExcept (fs.walk (offset / clusterBytes) dirCluster)
  let sector := fs.clusterToSector cluster + offset % clusterBytes / sectorSize
  let sec ← MonadExcept.ofExcept (readSector disk sector)
  writeSector sector (patch sec (offset % clusterBytes % sectorSize)
    (entryBytes (toShortName filename) start fileSize))

end Fat32Fs

/-- Run a computation on the device of a volume. -/
def onDisk {α : Type} (x : EStateM String Disk α) : EStateM String Volume α := fun vol =>
  match x vol.disk with
  | .ok a disk => .ok a { vol with disk }
  | .error e disk => .error e { vol with disk }

def allocClusters (count : ℕ) : EStateM String Volume UInt32 := fun vol =>
  match vol.fs.freeClusters.take count with
  | [] => .error "No free clusters" vol
  | start :: rest =>
    if (start :: rest).length < count then .error "No free clusters" vol
    else .ok start { vol with fs := vol.fs.take (start :: rest) }

/-- An empty file takes a cluster, too. -/
def Fat32Fs.clustersNeeded (fs : Fat32Fs) (data : List UInt8) : ℕ :=
  if data = [] then 1
  else (data.length + fs.spc * sectorSize - 1) / (fs.spc * sectorSize)

def writeFile (path : FilePath) (data : List UInt8) : EStateM String Volume Unit := do
  let needed := (← get).fs.clustersNeeded data
  let start ← allocClusters needed
  let fs := (← get).fs
  onDisk (fs.writeData data needed start 0)
  onDisk fs.updateFatOnDisk
  let dir ← MonadExcept.ofExcept ((← get).dirCluster path)
  onDisk (fs.updateOrCreateEntry dir (splitPath path).2 start (UInt32.ofNat data.length))

end SmartOs.Drivers.Fat32
