/-
# The virtual file system

One interface over the RAM filesystem and the filesystems of the drivers. Operations that
take a path choose the filesystem by a prefix of the path; operations on a descriptor
choose it by the number of the inode, where numbers from `0x8000_0000` on stand for
driver filesystems and devices. The drivers are parameters.
-/

import SmartOs.Vfs.RamFs

namespace SmartOs.Vfs

open SmartOs.CS SmartOs.SmartPack

/-- What ext4 reports about a file. -/
structure InodeStat where
  ino : UInt32
  mode : UInt16
  size : UInt64

/-- The filesystem and device drivers, as far as the VFS calls them. -/
structure Drivers where
  DiskFs : Type
  diskListFiles : DiskFs → List FilePath
  diskReadFile : DiskFs → FilePath → Except String (List UInt8)
  diskWriteFile : FilePath → List UInt8 → EStateM String DiskFs Unit
  Fat32Fs : Type
  fatReadFile : Fat32Fs → FilePath → Except String (List UInt8)
  fatWriteFile : FilePath → List UInt8 → EStateM String Fat32Fs Unit
  Ext4Volume : Type
  ext4ReadFile : Ext4Volume → FilePath → Option (List UInt8)
  ext4StatInode : Ext4Volume → FilePath → Option InodeStat
  writeCom : ℕ → List UInt8 → Except String Unit

/-! ## State -/

structure FileDescriptor where
  inodeId : ℕ
  path : FilePath
  offset : ℕ

structure FdTable where
  fds : ℕ → Option FileDescriptor
  nextFd : ℕ

def FdTable.new : FdTable := ⟨fun _ => none, 3⟩

/-- The state of the VFS, the mounted filesystems and the write protection. -/
structure VfsState (D : Drivers) where
  ramFs : Option RamFs
  fdTable : Option FdTable
  dirtyFiles : List FilePath
  protectedPaths : List FilePath
  bypassActive : Bool
  diskFs : Option D.DiskFs
  fat32Fs : Option D.Fat32Fs
  ntfsMounted : Bool
  ext4Mounts : List (FilePath × D.Ext4Volume)

abbrev VfsM (D : Drivers) := EStateM String (VfsState D)

/-! ## Routing by path -/

/-- The path is a mount point or below it. -/
def isUnder (mount path : FilePath) : Bool :=
  path = mount || (mount ++ ['/']).isPrefixOf path

/-- The rest of the path below a mount point. -/
def subpath (mount path : FilePath) : FilePath :=
  if (mount ++ ['/']).isPrefixOf path then path.drop (mount.length + 1) else []

def diskMount : FilePath := "/disk".toList
def fatMount : FilePath := "/fat".toList
def ntfsMount : FilePath := "/ntfs".toList
def devMount : FilePath := "/dev".toList

section Paths

variable (path : FilePath)

def isDiskPath : Bool := isUnder diskMount path
def diskFilename : FilePath := subpath diskMount path
def isFatPath : Bool := isUnder fatMount path
def fatSubpath : FilePath := subpath fatMount path
def isNtfsPath : Bool := isUnder ntfsMount path
def ntfsSubpath : FilePath := subpath ntfsMount path
def devName : FilePath := subpath devMount path

/-- Unlike the other mount points, `/dev` itself is not routed. -/
def isDevPath : Bool := (devMount ++ ['/']).isPrefixOf path

end Paths

/-- The number of a character device. -/
def deviceId (name : FilePath) : Option ℕ :=
  if name = "ttyS0".toList then some 0
  else if name = "ttyS1".toList then some 1
  else if name = "ttyS2".toList then some 2
  else if name = "ttyS3".toList then some 3
  else if name = "lp0".toList then some 4
  else if name = "audio".toList then some 5
  else if name = "dsp".toList then some 6
  else none

/-! ## The drivers behind their locks -/

variable {D : Drivers}

section Calls

variable (s : VfsState D) (path : FilePath)

/-- The first ext4 volume whose mount point is a prefix of the path, and the rest of the
path. -/
def findVolumeAndSubpath :
    List (FilePath × D.Ext4Volume) → FilePath → Option (D.Ext4Volume × FilePath)
  | [], _ => none
  | (mountPoint, volume) :: mounts, path =>
    if mountPoint.isPrefixOf path then
      let rest := path.drop mountPoint.length
      some (volume, if rest = [] then ['/'] else rest)
    else findVolumeAndSubpath mounts path

namespace VfsState

def ext4HandlesPath : Bool :=
  s.ext4Mounts.any fun mount => mount.1.isPrefixOf path

def ext4VfsReadFile : Option (List UInt8) :=
  (findVolumeAndSubpath s.ext4Mounts path).bind fun (volume, sub) => D.ext4ReadFile volume sub

def ext4VfsStat : Option InodeStat :=
  (findVolumeAndSubpath s.ext4Mounts path).bind fun (volume, sub) => D.ext4StatInode volume sub

end VfsState

/-- The NTFS driver cannot read files yet. -/
def ntfsReadFile (_path : FilePath) : Except String (List UInt8) :=
  .error "NTFS read not fully implemented in this turn"

def onRamFs {α : Type} : EStateM String RamFs α → VfsM D α :=
  zoom VfsState.ramFs (fun fs s => { s with ramFs := some fs }) "VFS not initialized"

def onDiskFs {α : Type} : EStateM String D.DiskFs α → VfsM D α :=
  zoom VfsState.diskFs (fun fs s => { s with diskFs := some fs }) "Disk not mounted"

def onFat32 {α : Type} : EStateM String D.Fat32Fs α → VfsM D α :=
  zoom VfsState.fat32Fs (fun fs s => { s with fat32Fs := some fs }) "FAT32 not mounted"

def fatRead : VfsM D (List UInt8) := do
  let fs ← orThrow (← get).fat32Fs "FAT32 not mounted"
  MonadExcept.ofExcept (D.fatReadFile fs path)

def diskRead (name : FilePath) : VfsM D (List UInt8) := do
  let fs ← orThrow (← get).diskFs "Disk not mounted"
  MonadExcept.ofExcept (D.diskReadFile fs name)

/-! ## Write protection -/

/-- The paths that are protected after `init`. -/
def systemPaths : List FilePath := ["/system/".toList, "/boot/".toList, "/bin/".toList]

/-- The path begins with a protected one. -/
def VfsState.Protects : Bool :=
  s.protectedPaths.any (·.isPrefixOf path)

def checkWrite : VfsM D Unit := do
  let s ← get
  if s.bypassActive then return ()
  else if s.Protects path then throw "Write to immutable system path denied"
  else return ()

/-! ## Descriptors -/

/-- `FdTable::open` under its lock. -/
def openFd (inodeId : ℕ) (path : FilePath) : VfsM D ℕ := do
  let s ← get
  let table ← orThrow s.fdTable "FD table not initialized"
  let fds := Function.update table.fds table.nextFd (some ⟨inodeId, path, 0⟩)
  set { s with fdTable := some ⟨fds, table.nextFd + 1⟩ }
  return table.nextFd

def getFd (fdNum : ℕ) : VfsM D FileDescriptor := do
  let table ← orThrow (← get).fdTable "FD table not initialized"
  orThrow (table.fds fdNum) "Invalid fd"

/-- Move a descriptor past the bytes that were read. -/
def advance (fdNum : ℕ) (bytes : List UInt8) : VfsM D (List UInt8) := do
  let s ← get
  let table ← orThrow s.fdTable "FD table not initialized"
  let fds := Function.update table.fds fdNum
    ((table.fds fdNum).map fun fd => { fd with offset := fd.offset + bytes.length })
  set { s with fdTable := some { table with fds } }
  return bytes

/-- The bytes that a read at an offset into a buffer of length `len` copies. -/
def slice (data : List UInt8) (offset len : ℕ) : List UInt8 := (data.drop offset).take len

/-! ## Operations -/

/-- The inode number that `open` puts into the descriptor of a path. -/
def VfsState.openInode : Except String ℕ :=
  if isDevPath path then
    match deviceId (devName path) with
    | none => .error "Device not found"
    | some id => .ok (0xA0000000 + id)
  else if isNtfsPath path then
    if s.ntfsMounted then .ok 0x80000000 else .error "NTFS not mounted"
  else if isFatPath path then
    match s.fat32Fs with
    | none => .error "FAT32 not mounted"
    | some fs =>
      -- the file exists if it can be read
      match D.fatReadFile fs (fatSubpath path) with
      | .error _ => .error "File not found on FAT32"
      | .ok _ => .ok 0x90000000
  else if isDiskPath path then
    match s.diskFs with
    | none => .error "Disk not mounted"
    | some fs =>
      if (D.diskListFiles fs).contains (diskFilename path) then .ok 0x80000000
      else .error "File not found on disk"
  else
    match s.ramFs with
    | none => .error "VFS not initialized"
    | some fs =>
      match fs.lookup path with
      | none => .error "File not found"
      | some inodeId => .ok inodeId

def openFile : VfsM D ℕ := do
  let inodeId ← MonadExcept.ofExcept ((← get).openInode path)
  openFd inodeId path

def close (fdNum : ℕ) : VfsM D Unit := do
  let s ← get
  let table ← orThrow s.fdTable "FD table not initialized"
  let _ ← orThrow (table.fds fdNum) "Invalid fd"
  set { s with fdTable := some { table with fds := Function.update table.fds fdNum none } }

/-- Read from a descriptor into a buffer of length `len`. -/
def read (fdNum len : ℕ) : VfsM D (List UInt8) := do
  let s ← get
  let fd ← getFd fdNum
  if 0x80000000 ≤ fd.inodeId ∧ fd.inodeId < 0x90000000 then
    if !s.ntfsMounted then throw "NTFS not mounted"
    else
      -- the descriptor is not moved here
      let data ← MonadExcept.ofExcept (ntfsReadFile (ntfsSubpath fd.path))
      return slice data fd.offset len
  else if 0x90000000 ≤ fd.inodeId then
    let data ← fatRead (fatSubpath fd.path)
    advance fdNum (slice data fd.offset len)
  else if 0x80000000 ≤ fd.inodeId then
    -- unreachable: the numbers of the disk are those of NTFS
    let data ← diskRead (diskFilename fd.path)
    advance fdNum (slice data fd.offset len)
  else
    let fs ← orThrow s.ramFs "VFS not initialized"
    let bytes ← MonadExcept.ofExcept (fs.read fd.inodeId fd.offset len)
    advance fdNum bytes

/-- Write to a character device. -/
def writeDevice (id : ℕ) (data : List UInt8) : VfsM D ℕ :=
  if id ≤ 3 then do
    MonadExcept.ofExcept (D.writeCom id data)
    return data.length
  else if id ≤ 6 then return data.length
  else throw "Invalid device ID"

def VfsState.addDirty : VfsState D :=
  let known := s.dirtyFiles.contains path
  { s with dirtyFiles := if known then s.dirtyFiles else s.dirtyFiles ++ [path] }

def markDirty : VfsM D Unit := modify (·.addDirty path)

/-- Write to a descriptor: the file gets a new content. -/
def write (fdNum : ℕ) (data : List UInt8) (now : UInt64) : VfsM D ℕ := do
  -- the check is made only if there is such a descriptor; without one `getFd` fails below
  match (← get).fdTable.bind (·.fds fdNum) with
  | none => pure ()
  | some fd => checkWrite fd.path
  let fd ← getFd fdNum
  if 0xA0000000 ≤ fd.inodeId then
    writeDevice (fd.inodeId - 0xA0000000) data
  else if 0x90000000 ≤ fd.inodeId then
    onFat32 (D.fatWriteFile (fatSubpath fd.path) data)
    return data.length
  else if 0x80000000 ≤ fd.inodeId then
    onDiskFs (D.diskWriteFile (diskFilename fd.path) data)
    return data.length
  else
    -- by path and not by the number in the descriptor
    onRamFs (RamFs.writeOrCreate fd.path data now)
    markDirty fd.path
    return data.length

def mkdir (now : UInt64) : VfsM D Unit :=
  -- the disk is flat and has no directories
  if isDiskPath path then return ()
  else onRamFs (RamFs.mkdir path now)

def stat : VfsM D Value := do
  let s ← get
  -- ext4 comes first here, but after FAT32 in `readFileFull` and nowhere in `openInode`
  if s.ext4HandlesPath path then
    let st ← orThrow (s.ext4VfsStat path) "ext4: stat failed"
    let kind := if st.mode &&& 0xF000 = 0x4000 then "dir" else "file"
    return .map [(.string "size", .uint64 st.size), (.string "type", .string kind),
      (.string "fs", .string "ext4"), (.string "ino", .uint64 st.ino.toUInt64)]
  else if isFatPath path then
    let data ← fatRead (fatSubpath path)
    return .map [(.string "size", .uint64 (UInt64.ofNat data.length)),
      (.string "type", .string "file"), (.string "fs", .string "fat32")]
  else if isDiskPath path then
    let data ← diskRead (diskFilename path)
    return .map [(.string "size", .uint64 (UInt64.ofNat data.length)),
      (.string "type", .string "file")]
  else
    let fs ← orThrow s.ramFs "VFS not initialized"
    MonadExcept.ofExcept (fs.stat path)

/-- Create a file, or replace its content. -/
def createAndWrite (data : List UInt8) (now : UInt64) : VfsM D Unit := do
  checkWrite path
  if isFatPath path then
    onFat32 (D.fatWriteFile (fatSubpath path) data)
  else if isDiskPath path then
    onDiskFs (D.diskWriteFile (diskFilename path) data)
  else
    onRamFs (RamFs.writeOrCreate path data now)
    markDirty path

def deleteFile : VfsM D Unit :=
  -- no check for protected paths
  if isDiskPath path || isFatPath path then throw "delete not supported on this filesystem"
  else onRamFs (RamFs.delete path)

/-- The size in the metadata of a file. -/
def sizeField : Value → Option UInt64
  | .map pairs =>
    match pairs.find? fun pair => match pair.1 with
      | .string key => key = "size"
      | _ => false with
    | some (_, .uint64 size) => some size
    | _ => none
  | _ => none

def readFileFull : VfsM D (List UInt8) := do
  let s ← get
  if isFatPath path then
    fatRead (fatSubpath path)
  else if s.ext4HandlesPath path then
    orThrow (s.ext4VfsReadFile path) "ext4: read failed"
  else if isDiskPath path then
    diskRead (diskFilename path)
  else
    let fs ← orThrow s.ramFs "VFS not initialized"
    let inodeId ← orThrow (fs.lookup path) "File not found"
    let stat ← MonadExcept.ofExcept (fs.stat path)
    let size := ((sizeField stat).getD 0).toNat
    let bytes ← MonadExcept.ofExcept (fs.read inodeId 0 size)
    -- the buffer is zeroed, and what is not read stays zero
    return bytes ++ List.replicate (size - bytes.length) 0

/-! ## What the checks and descriptor operations do -/

/-- A write to the path passes the check. -/
def VfsState.MayWrite : Prop :=
  s.bypassActive ∨ s.Protects path = false

/-- The open file behind a descriptor number. -/
def VfsState.descriptor (fdNum : ℕ) : Option FileDescriptor :=
  s.fdTable.bind (·.fds fdNum)

def VfsState.opened (table : FdTable) (inodeId : ℕ) (path : FilePath) : VfsState D :=
  let fds := Function.update table.fds table.nextFd (some ⟨inodeId, path, 0⟩)
  { s with fdTable := some ⟨fds, table.nextFd + 1⟩ }

end Calls

section Effects

variable {s s' : VfsState D} {path : FilePath} {data : List UInt8} {now : UInt64}

theorem checkWrite_of_mayWrite (allowed : s.MayWrite path) : checkWrite path s = .ok () s := by
  rcases allowed with bypassed | unprotected <;> simp [checkWrite, *]

theorem checkWrite_of_not (refused : ¬ s.MayWrite path) :
    checkWrite path s = .error "Write to immutable system path denied" s := by
  simp only [VfsState.MayWrite, not_or] at refused
  simp [checkWrite, refused]

@[simp] theorem finalState_writeDevice (id : ℕ) : finalState (writeDevice id data s) = s := by
  unfold writeDevice
  split_ifs
  · cases D.writeCom id data <;> simp
  · rfl
  · rfl

theorem openFile_eq_ok_iff {fdNum : ℕ} :
    openFile path s = .ok fdNum s' ↔ ∃ table inodeId, s.fdTable = some table ∧
      s.openInode path = .ok inodeId ∧ fdNum = table.nextFd ∧ s' = s.opened table inodeId path := by
  unfold openFile openFd
  cases routed : s.openInode path with
  | error e => simp [routed]
  | ok inodeId =>
    cases open' : s.fdTable with
    | none => simp [routed, open']
    | some table => simp [routed, open', VfsState.opened, eq_comm]

@[simp] theorem descriptor_opened (table : FdTable) (inodeId : ℕ) :
    (s.opened table inodeId path).descriptor table.nextFd = some ⟨inodeId, path, 0⟩ := by
  simp [VfsState.descriptor, VfsState.opened]

theorem createAndWrite_of_refused (refused : ¬ s.MayWrite path) :
    createAndWrite path data now s = .error "Write to immutable system path denied" s :=
  bind_of_error (checkWrite_of_not refused)

theorem createAndWrite_of_allowed (allowed : s.MayWrite path) : createAndWrite path data now s =
    (if isFatPath path then onFat32 (D.fatWriteFile (fatSubpath path) data)
    else if isDiskPath path then onDiskFs (D.diskWriteFile (diskFilename path) data) else do
      onRamFs (RamFs.writeOrCreate path data now)
      markDirty path) s :=
  bind_of_ok (checkWrite_of_mayWrite allowed)

theorem createAndWrite_of_ram (allowed : s.MayWrite path) (fat : isFatPath path = false)
    (disk : isDiskPath path = false) {fs fs' : RamFs} (init : s.ramFs = some fs)
    (written : RamFs.writeOrCreate path data now fs = .ok () fs') : createAndWrite path data now s =
      .ok () (({ s with ramFs := some fs' } : VfsState D).addDirty path) := by
  have done : onRamFs (RamFs.writeOrCreate path data now) s = .ok () { s with ramFs := some fs' } :=
    zoom_eq_ok_iff.mpr ⟨fs, fs', init, written, rfl⟩
  rw [createAndWrite_of_allowed allowed, fat, disk, if_neg Bool.false_ne_true,
    if_neg Bool.false_ne_true, bind_of_ok done, markDirty, modify_apply]

/-- What an accepted write did, by the filesystem that took it. -/
theorem createAndWrite_eq_ok (ok : createAndWrite path data now s = .ok () s') : s.MayWrite path ∧
      ((isFatPath path ∧ ∃ fs fs', s.fat32Fs = some fs ∧
          D.fatWriteFile (fatSubpath path) data fs = .ok () fs' ∧
          s' = { s with fat32Fs := some fs' }) ∨
        (isFatPath path = false ∧ isDiskPath path ∧ ∃ fs fs', s.diskFs = some fs ∧
          D.diskWriteFile (diskFilename path) data fs = .ok () fs' ∧
          s' = { s with diskFs := some fs' }) ∨
        (isFatPath path = false ∧ isDiskPath path = false ∧ ∃ fs fs', s.ramFs = some fs ∧
          RamFs.writeOrCreate path data now fs = .ok () fs' ∧
          s' = ({ s with ramFs := some fs' } : VfsState D).addDirty path)) := by
  by_cases allowed : s.MayWrite path
  case neg =>
    rw [createAndWrite_of_refused allowed] at ok
    cases ok
  rw [createAndWrite_of_allowed allowed] at ok
  refine ⟨allowed, ?_⟩
  split_ifs at ok with fat disk
  · exact .inl ⟨fat, zoom_eq_ok_iff.mp ok⟩
  · exact .inr (.inl ⟨Bool.eq_false_iff.mpr fat, disk, zoom_eq_ok_iff.mp ok⟩)
  obtain ⟨_, s₁, written, marked⟩ := bind_eq_ok_iff.mp ok
  obtain ⟨fs, fs', initialised, done, rfl⟩ := zoom_eq_ok_iff.mp written
  cases marked
  exact .inr (.inr ⟨Bool.eq_false_iff.mpr fat, Bool.eq_false_iff.mpr disk, fs, fs', initialised,
    done, rfl⟩)

end Effects

end SmartOs.Vfs
