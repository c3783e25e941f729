/-
# Reading back what was written

A path has one filesystem if opening, reading, writing, `stat` and reading the whole file
all look at the place where `create_and_write` put the data. The path chooses the
filesystem when it is opened, but the inode number in the descriptor chooses it when it
is read or written, and the two choices do not always agree.
-/

import Mathlib.Algebra.GroupWithZero.Nat
import SmartOs.Vfs.Operations

namespace SmartOs.Vfs

open SmartOs.CS SmartOs.SmartPack List VfsState

variable {D : Drivers} {s s' t u : VfsState D} {path : FilePath} {data : List UInt8}
  {fdNum : ℕ} {fd : FileDescriptor}

/-! ## Descriptors as cursors -/

/-- The bytes that reads through a descriptor see. Numbers from `0x8000_0000` to
`0x8FFF_FFFF` are taken for NTFS, which cannot be read. -/
def VfsState.backing (s : VfsState D) (fd : FileDescriptor) : Option (List UInt8) :=
  if fd.inodeId < 0x80000000 then
    s.ramFs.bind fun fs => (fs.inodes fd.inodeId).bind Inode.content
  else if fd.inodeId < 0x90000000 then none
  else s.fat32Fs.bind fun fs => (D.fatReadFile fs (fatSubpath fd.path)).toOption

/-- The state after a descriptor has moved forward. -/
def VfsState.moved (s : VfsState D) (fdNum count : ℕ) : VfsState D :=
  let move (fd : FileDescriptor) := { fd with offset := fd.offset + count }
  let moveIn (table : FdTable) :=
    { table with fds := Function.update table.fds fdNum ((table.fds fdNum).map move) }
  { s with fdTable := s.fdTable.map moveIn }

section

variable (found : s.descriptor fdNum = some fd)
include found

theorem getFd_of_descriptor : getFd fdNum s = .ok fd s := by
  obtain ⟨table, opened, entry⟩ := Option.bind_eq_some_iff.mp found
  simp [getFd, opened, entry, orThrow]

theorem advance_of_descriptor (bytes : List UInt8) :
    advance fdNum bytes s = .ok bytes (s.moved fdNum bytes.length) := by
  obtain ⟨table, opened, -⟩ := Option.bind_eq_some_iff.mp found
  simp [advance, opened, moved]

theorem descriptor_moved (count : ℕ) :
    (s.moved fdNum count).descriptor fdNum = some { fd with offset := fd.offset + count } := by
  obtain ⟨table, opened, entry⟩ := Option.bind_eq_some_iff.mp found
  simp [descriptor, moved, opened, entry]

theorem read_of_backing (backed : s.backing fd = some data) (len : ℕ) : read fdNum len s =
      .ok (slice data fd.offset len) (s.moved fdNum (slice data fd.offset len).length) := by
  unfold backing at backed
  unfold read
  rw [get_bind_apply, bind_of_ok (getFd_of_descriptor found)]
  split_ifs at backed with ram ntfs
  · obtain ⟨fs, init, content⟩ := Option.bind_eq_some_iff.mp backed
    have bytes := fs.read_eq fd.inodeId fd.offset len
    rw [content, Option.map_some, toOption_eq_some_iff] at bytes
    simp only [show ¬ 0x80000000 ≤ fd.inodeId by omega, show ¬ 0x90000000 ≤ fd.inodeId by omega,
      false_and, if_false, init, orThrow_some_bind, bytes]
    exact advance_of_descriptor found _
  · obtain ⟨fs, mounted, content⟩ := Option.bind_eq_some_iff.mp backed
    rw [toOption_eq_some_iff] at content
    have whole : fatRead (fatSubpath fd.path) s = .ok data s := by
      simp [fatRead, mounted, content]
    simp only [ntfs, show 0x90000000 ≤ fd.inodeId by omega, and_false, if_false, if_true]
    rw [bind_of_ok whole]
    exact advance_of_descriptor found _

theorem read_of_not_backing (unbacked : s.backing fd = none)
    (len : ℕ) : ∃ e, read fdNum len s = .error e s := by
  unfold backing at unbacked
  unfold read
  rw [get_bind_apply, bind_of_ok (getFd_of_descriptor found)]
  split_ifs at unbacked with ram ntfs
  · simp only [show ¬ 0x80000000 ≤ fd.inodeId by omega, show ¬ 0x90000000 ≤ fd.inodeId by omega,
      false_and, if_false]
    cases init : s.ramFs with
    | none => exact ⟨_, rfl⟩
    | some fs =>
      have bytes := fs.read_eq fd.inodeId fd.offset len
      have unreadable : (fs.inodes fd.inodeId).bind Inode.content = none := by
        simpa [init] using unbacked
      rw [unreadable, Option.map_none, toOption_eq_none_iff] at bytes
      obtain ⟨e, failed⟩ := bytes
      exact ⟨e, by rw [orThrow_some_bind, failed, ofExcept_error_bind]⟩
  · -- the NTFS range: neither an unmounted nor a mounted volume gives any data
    rw [if_pos ⟨by omega, ntfs⟩]
    cases s.ntfsMounted <;> exact ⟨_, rfl⟩
  · simp only [ntfs, show 0x90000000 ≤ fd.inodeId by omega, and_false]
    cases mounted : s.fat32Fs with
    | none => exact ⟨"FAT32 not mounted", bind_of_error (by simp [fatRead, mounted])⟩
    | some fs =>
      obtain ⟨e, failed⟩ := toOption_eq_none_iff.mp (by simpa [mounted] using unbacked)
      exact ⟨e, bind_of_error (by simp [fatRead, mounted, failed])⟩

end

/-! ## Reading in chunks -/

/-- Read repeatedly, with a buffer length for every read. -/
def reads (fdNum : ℕ) : List ℕ → VfsM D (List (List UInt8))
  | [] => return []
  | len :: lens => do
    let chunk ← read fdNum len
    let chunks ← reads fdNum lens
    return chunk :: chunks

/-- The descriptor stands at an offset in `data`. -/
def VfsState.Serves (s : VfsState D) (fdNum : ℕ) (data : List UInt8) (offset : ℕ) : Prop :=
  ∃ fd, s.descriptor fdNum = some fd ∧ fd.offset = offset ∧ s.backing fd = some data

theorem slice_append_drop (offset len rest : ℕ) :
    slice data offset len ++ slice data (offset + (slice data offset len).length) rest =
      slice data offset (len + rest) := by
  unfold slice
  -- a short chunk means that the data has ended, and then both sides are empty
  have skipped : data.drop (offset + ((data.drop offset).take len).length) =
      (data.drop offset).drop len := by
    rw [← drop_drop, drop_eq_drop_iff, length_take]
    omega
  rw [skipped, ← take_add]

theorem read_of_serves {offset : ℕ} (serving : s.Serves fdNum data offset) (len : ℕ) :
    ∃ s', read fdNum len s = .ok (slice data offset len) s' ∧
      s'.Serves fdNum data (offset + (slice data offset len).length) := by
  obtain ⟨fd, found, rfl, backed⟩ := serving
  exact ⟨_, read_of_backing found backed len, _, descriptor_moved found _, rfl, backed⟩

theorem reads_of_serves (lens : List ℕ) {offset : ℕ} (serving : s.Serves fdNum data offset) :
    ∃ chunks s', reads fdNum lens s = .ok chunks s' ∧ chunks.flatten = slice data offset lens.sum ∧
      s'.Serves fdNum data (offset + chunks.flatten.length) := by
  induction lens generalizing s offset with
  | nil => exact ⟨[], s, rfl, by simp [slice], by simpa using serving⟩
  | cons len lens ih =>
    obtain ⟨s₁, first, serving₁⟩ := read_of_serves serving len
    obtain ⟨chunks, s₂, later, joined, serving₂⟩ := ih serving₁
    refine ⟨slice data offset len :: chunks, s₂, ?_, ?_, ?_⟩
    · rw [reads, bind_of_ok first, bind_of_ok later, pure_apply]
    · rw [flatten_cons, joined, slice_append_drop, sum_cons]
    · rw [flatten_cons, length_append, ← add_assoc]
      exact serving₂

/-! ## One filesystem for every operation -/

/-- An open descriptor reads `data` in chunks of any sizes, moving on by what it returns,
and writes where `create_and_write` writes. -/
structure VfsState.ReadsThrough (s : VfsState D) (fdNum : ℕ) (path : FilePath)
    (data : List UInt8) : Prop where
  chunks : ∀ lens : List ℕ, (∀ len ∈ lens, 0 < len) → ∃ chunks s',
    reads fdNum lens s = .ok chunks s' ∧ chunks.flatten = data.take lens.sum ∧
    (s'.descriptor fdNum).map (·.offset) = some chunks.flatten.length
  writes : ∀ (other : List UInt8) (now : UInt64), write fdNum other now s =
    ((fun _ => other.length) <$> createAndWrite path other now) s

/-- `stat` reports the size of `data`. -/
def VfsState.StatsSize (s : VfsState D) (path : FilePath) (data : List UInt8) : Prop :=
  ∃ value, stat path s = .ok value s ∧ sizeField value = some (UInt64.ofNat data.length)

/-- Every operation on the path finds `data`. -/
structure VfsState.ReadsBack (s : VfsState D) (path : FilePath) (data : List UInt8) : Prop where
  opens : ∃ fdNum t, openFile path s = .ok fdNum t ∧ t.ReadsThrough fdNum path data
  stats : s.StatsSize path data
  full : readFileFull path s = .ok data s

/-- An ext4 volume that covers the path has a file of this size there. -/
def VfsState.Ext4Size (s : VfsState D) (path : FilePath) (data : List UInt8) : Prop :=
  s.ext4HandlesPath path →
    ∃ st, s.ext4VfsStat path = some st ∧ st.size = UInt64.ofNat data.length

/-- An ext4 volume that covers the path has the data there. -/
def VfsState.Ext4Data (s : VfsState D) (path : FilePath) (data : List UInt8) : Prop :=
  s.ext4HandlesPath path → s.ext4VfsReadFile path = some data

/-- The condition under which a write of `data` in this state is read back: descriptors
are there, and the path belongs to FAT32 and the driver reads back what it writes, or the
path belongs to the RAM filesystem alone and the number of its inode is no driver's. -/
def VfsState.RoutesBack (s : VfsState D) (path : FilePath) (data : List UInt8) : Prop :=
  s.fdTable.isSome ∧ s.Ext4Size path data ∧
    if isFatPath path then
      ∀ fs fs', s.fat32Fs = some fs → D.fatWriteFile (fatSubpath path) data fs = .ok () fs' →
        D.fatReadFile fs' (fatSubpath path) = .ok data
    else
      isDiskPath path = false ∧ isNtfsPath path = false ∧ isDevPath path = false ∧
        s.Ext4Data path data ∧ ∀ fs, s.ramFs = some fs → fs.target path < 0x80000000

/-! ## Routes do not overlap -/

theorem getElem?_of_isUnder {mount : FilePath} (under : isUnder mount path) {i : ℕ}
    (inside : i < mount.length) : path[i]? = mount[i]? := by
  unfold isUnder at under
  simp only [Bool.or_eq_true, decide_eq_true_eq, isPrefixOf_iff_prefix] at under
  rcases under with rfl | ⟨rest, rfl⟩
  · rfl
  · rw [append_assoc, getElem?_append_left inside]

/-- A path is under at most one of two mount points that differ in a character. -/
theorem isUnder_of_ne {mount : FilePath} (other : FilePath) (under : isUnder mount path)
    (i : ℕ) (inside : i < mount.length) (inside' : i < other.length)
    (differ : mount[i]? ≠ other[i]?) : isUnder other path = false := by
  rw [Bool.eq_false_iff]
  intro under'
  exact differ ((getElem?_of_isUnder under inside).symm.trans (getElem?_of_isUnder under' inside'))

theorem isDevPath_of_isUnder (elsewhere : isUnder devMount path = false) :
    isDevPath path = false := by
  simp only [isUnder, Bool.or_eq_false_iff] at elsewhere
  exact elsewhere.2

theorem isDevPath_of_isFatPath (fat : isFatPath path) : isDevPath path = false :=
  isDevPath_of_isUnder (isUnder_of_ne devMount fat 1 (by decide) (by decide) (by decide))

theorem isDevPath_of_isDiskPath (disk : isDiskPath path) : isDevPath path = false :=
  isDevPath_of_isUnder (isUnder_of_ne devMount disk 2 (by decide) (by decide) (by decide))

theorem isNtfsPath_of_isFatPath (fat : isFatPath path) : isNtfsPath path = false :=
  isUnder_of_ne ntfsMount fat 1 (by decide) (by decide) (by decide)

theorem isNtfsPath_of_isDiskPath (disk : isDiskPath path) : isNtfsPath path = false :=
  isUnder_of_ne ntfsMount disk 1 (by decide) (by decide) (by decide)

/-- The disk and NTFS are opened with a number that cannot be read. -/
theorem openInode_of_unreadable {number : ℕ} (dev : isDevPath path = false)
    (unreadable : isNtfsPath path ∨ isFatPath path = false ∧ isDiskPath path)
    (route : s.openInode path = .ok number) : number = 0x80000000 := by
  unfold openInode at route
  rw [dev, if_neg Bool.false_ne_true] at route
  rcases unreadable with ntfs | ⟨fat, disk⟩
  · rw [if_pos ntfs] at route
    split at route
    · cases route
      rfl
    · cases route
  · rw [isNtfsPath_of_isDiskPath disk, fat, if_neg Bool.false_ne_true, if_neg Bool.false_ne_true,
      if_pos disk] at route
    split at route
    · cases route
    split at route
    · cases route
      rfl
    · cases route

/-! ## Writing through a descriptor -/

variable {inodeId : ℕ}

section Descriptor

variable (found : s.descriptor fdNum = some fd)

include found

theorem write_of_refused (refused : ¬ s.MayWrite fd.path) (now : UInt64) :
    write fdNum data now s = .error "Write to immutable system path denied" s := by
  unfold write
  rw [get_bind_apply, show s.fdTable.bind (·.fds fdNum) = some fd from found]
  exact bind_of_error (checkWrite_of_not refused)

theorem write_of_allowed (allowed : s.MayWrite fd.path) (now : UInt64) : write fdNum data now s =
      (if 0xA0000000 ≤ fd.inodeId then
        writeDevice (fd.inodeId - 0xA0000000) data else if 0x90000000 ≤ fd.inodeId then
        (fun _ => data.length) <$> onFat32 (D.fatWriteFile (fatSubpath fd.path) data)
      else if 0x80000000 ≤ fd.inodeId then
        (fun _ => data.length) <$> onDiskFs (D.diskWriteFile (diskFilename fd.path) data)
      else (fun _ => data.length) <$> (do
        onRamFs (RamFs.writeOrCreate fd.path data now)
        markDirty fd.path)) s := by
  unfold write
  rw [get_bind_apply, show s.fdTable.bind (·.fds fdNum) = some fd from found]
  simp only
  rw [bind_of_ok (checkWrite_of_mayWrite allowed), bind_of_ok (getFd_of_descriptor found)]
  simp

/-! ## Necessary conditions -/

theorem VfsState.ReadsThrough.backed (through : s.ReadsThrough fdNum path data) :
    s.backing fd ≠ none := by
  intro unbacked
  obtain ⟨chunks, s', ok, -⟩ := through.chunks [1] (by simp)
  obtain ⟨e, failed⟩ := read_of_not_backing found unbacked 1
  rw [reads, bind_of_error failed] at ok
  cases ok

/-- Writing through a number of a driver never reaches the RAM filesystem. -/
theorem ramFs_write_of_driver (driver : 0x80000000 ≤ fd.inodeId) (now : UInt64) :
    (finalState (write fdNum data now s)).ramFs = s.ramFs := by
  by_cases allowed : s.MayWrite fd.path
  · rw [write_of_allowed found allowed]
    split_ifs
    · rw [finalState_writeDevice]
    · rw [finalState_map, onFat32, finalState_zoom]
      cases s.fat32Fs <;> rfl
    · rw [finalState_map, onDiskFs, finalState_zoom]
      cases s.diskFs <;> rfl
  · rw [write_of_refused found allowed, finalState_error]

/-- A file in the RAM filesystem is not written through a number of a driver. -/
theorem VfsState.ReadsThrough.inode_lt (through : s.ReadsThrough fdNum path data)
    (allowed : s.MayWrite path) (fat : isFatPath path = false) (disk : isDiskPath path = false)
    {fs : RamFs} {inode : Inode} (init : s.ramFs = some fs) (placed : fs.lookup path = some inodeId)
    (stored : fs.inodes inodeId = some inode) (file : inode.inodeType = .file) :
    fd.inodeId < 0x80000000 := by
  by_contra driver
  -- write one byte more than the file has: at the path it would arrive, through the
  -- descriptor it does not
  have same := congrArg (fun result => (finalState result).ramFs)
    (through.writes (inode.data ++ [0]) 0)
  rw [ramFs_write_of_driver found (Nat.le_of_not_lt driver), finalState_map,
    createAndWrite_of_ram allowed fat disk init
      (RamFs.writeOrCreate_of_file placed stored file), init] at same
  have unchanged : fs = fs.store inodeId (inode.withData (inode.data ++ [0]) 0) :=
    Option.some.inj same
  have longer : some inode = some (inode.withData (inode.data ++ [0]) 0) := by
    rw [← stored]
    conv_lhs => rw [unchanged]
    simp [RamFs.store]
  have lengths := congrArg (fun inode => inode.data.length) (Option.some.inj longer)
  simp [Inode.withData] at lengths

end Descriptor

/-! ## Metadata and whole files -/

@[simp] theorem sizeField_size (size : UInt64) (rest : List (Value × Value)) :
    sizeField (.map ((.string "size", .uint64 size) :: rest)) = some size := by
  simp [sizeField]

theorem sizeField_toSmartpack (inode : Inode) : sizeField inode.toSmartpack = some inode.size := by
  simp [sizeField, Inode.toSmartpack]

/-- Where ext4 covers a path, `stat` asks ext4 whatever the other operations do. -/
theorem statsSize_iff_of_ext4 (handled : s.ext4HandlesPath path) :
    s.StatsSize path data ↔ s.Ext4Size path data := by
  unfold VfsState.StatsSize VfsState.Ext4Size stat
  cases found : s.ext4VfsStat path <;> simp [handled, found, -bind_pure_comp]

/-- A file of FAT32 that can be read has the size of its data. -/
theorem statsSize_of_fat (fat : isFatPath path) (unhandled : s.ext4HandlesPath path = false)
    {fs : D.Fat32Fs} (mounted : s.fat32Fs = some fs)
    (readable : D.fatReadFile fs (fatSubpath path) = .ok data) : s.StatsSize path data := by
  simp [VfsState.StatsSize, stat, unhandled, fat, fatRead, mounted, readable, -bind_pure_comp]

theorem readFileFull_of_fat (fat : isFatPath path) {fs : D.Fat32Fs}
    (mounted : s.fat32Fs = some fs) : readFileFull path s = .ok data s ↔
      D.fatReadFile fs (fatSubpath path) = .ok data := by
  cases result : D.fatReadFile fs (fatSubpath path) <;>
    simp [readFileFull, fat, fatRead, mounted, result]

theorem readFileFull_of_ext4 (fat : isFatPath path = false) (handled : s.ext4HandlesPath path) :
    readFileFull path s = .ok data s ↔ s.Ext4Data path data := by
  cases result : s.ext4VfsReadFile path <;>
    simp [readFileFull, fat, handled, result, VfsState.Ext4Data, orThrow]

section Ram

variable {fs : RamFs} {inodeId : ℕ} {inode : Inode}

section

variable (fat : isFatPath path = false) (disk : isDiskPath path = false)
  (unhandled : s.ext4HandlesPath path = false) (init : s.ramFs = some fs)
  (placed : fs.lookup path = some inodeId) (stored : fs.inodes inodeId = some inode)

include fat disk unhandled init placed stored

theorem statsSize_of_ram (size : inode.size = UInt64.ofNat data.length) :
    s.StatsSize path data := by
  have known : fs.stat path = .ok inode.toSmartpack := by
    simp [RamFs.stat, show fs.pathMap path = some inodeId from placed, stored]
  refine ⟨inode.toSmartpack, ?_, by rw [sizeField_toSmartpack, size]⟩
  simp [stat, unhandled, fat, disk, init, known]

/-- The buffer for a whole file is as long as the file, as the length fits 64 bits. -/
theorem readFileFull_of_ram (file : inode.inodeType = .file)
    (size : inode.size = UInt64.ofNat inode.data.length) (fits : inode.data.length < 2 ^ 64) :
    readFileFull path s = .ok inode.data s := by
  have known : fs.stat path = .ok inode.toSmartpack := by
    simp [RamFs.stat, show fs.pathMap path = some inodeId from placed, stored]
  have length : inode.size.toNat = inode.data.length := by
    rw [size]
    exact Nat.mod_eq_of_lt fits
  have bytes : fs.read inodeId 0 inode.data.length = .ok inode.data := by
    simp [RamFs.read, stored, file]
  simp [readFileFull, fat, disk, unhandled, init, placed, known, sizeField_toSmartpack,
    length, bytes, -bind_pure_comp]

end

end Ram

/-! ## Sufficient conditions -/

/-- The number in a descriptor leads to the filesystem that its path leads to. -/
def FileDescriptor.Consistent (fd : FileDescriptor) : Prop :=
  (isFatPath fd.path ∧ fd.inodeId = 0x90000000) ∨
    (isFatPath fd.path = false ∧ isDiskPath fd.path = false ∧ fd.inodeId < 0x80000000)

theorem write_of_consistent (found : s.descriptor fdNum = some fd) (consistent : fd.Consistent)
    (other : List UInt8) (now : UInt64) : write fdNum other now s =
      ((fun _ => other.length) <$> createAndWrite fd.path other now) s := by
  by_cases allowed : s.MayWrite fd.path
  · rw [write_of_allowed found allowed,
      map_congr_apply (fun _ => other.length) (createAndWrite_of_allowed allowed)]
    rcases consistent with ⟨fat, number⟩ | ⟨fat, disk, number⟩
    · simp [fat, number]
    · simp [fat, disk, show ¬ 0xA0000000 ≤ fd.inodeId by omega,
        show ¬ 0x90000000 ≤ fd.inodeId by omega, show ¬ 0x80000000 ≤ fd.inodeId by omega]
  · rw [write_of_refused found allowed,
      map_of_error (fun _ => other.length) (createAndWrite_of_refused allowed)]

theorem readsThrough_of_consistent (found : s.descriptor fdNum = some fd) (start : fd.offset = 0)
    (consistent : fd.Consistent) (backed : s.backing fd = some data) :
    s.ReadsThrough fdNum fd.path data where
  chunks lens _ := by
    obtain ⟨chunks, s', ok, joined, fd', found', offset, -⟩ :=
      reads_of_serves lens ⟨fd, found, start, backed⟩
    refine ⟨chunks, s', ok, by rw [joined, slice, drop_zero], ?_⟩
    rw [found', Option.map_some, offset, zero_add]
  writes := write_of_consistent found consistent

/-! ## When data is read back -/

/-- A path that opens with a consistent number is read back if the number leads to the data. -/
theorem readsBack_of_route {number : ℕ} (tabled : s.fdTable.isSome)
    (route : s.openInode path = .ok number)
    (consistent : FileDescriptor.Consistent ⟨number, path, 0⟩)
    (backed : s.backing ⟨number, path, 0⟩ = some data) (ext4 : s.Ext4Size path data)
    (stats : s.ext4HandlesPath path = false → s.StatsSize path data)
    (full : readFileFull path s = .ok data s) : s.ReadsBack path data := by
  obtain ⟨table, tabled⟩ := Option.isSome_iff_exists.mp tabled
  refine ⟨⟨table.nextFd, s.opened table number path, ?_, ?_⟩, ?_, full⟩
  · exact openFile_eq_ok_iff.mpr ⟨table, _, tabled, route, rfl, rfl⟩
  · exact readsThrough_of_consistent (descriptor_opened table _) rfl consistent backed
  · cases handled : s.ext4HandlesPath path with
    | true => exact (statsSize_iff_of_ext4 handled).mpr ext4
    | false => exact stats handled

/-- On FAT32 everything but `stat` goes to the driver. -/
theorem readsBack_iff_of_fat (fat : isFatPath path) {fs : D.Fat32Fs}
    (mounted : s.fat32Fs = some fs) : s.ReadsBack path data ↔
      s.fdTable.isSome ∧ s.Ext4Size path data ∧ D.fatReadFile fs (fatSubpath path) = .ok data := by
  constructor
  · rintro ⟨⟨fdNum, t, opened, -⟩, stats, full⟩
    obtain ⟨table, -, tabled, -⟩ := openFile_eq_ok_iff.mp opened
    refine ⟨by rw [tabled]; rfl, fun handled => ?_, (readFileFull_of_fat fat mounted).mp full⟩
    exact (statsSize_iff_of_ext4 handled).mp stats handled
  rintro ⟨tabled, ext4, readable⟩
  refine @readsBack_of_route D s path data 0x90000000 tabled ?_ (.inl ⟨fat, rfl⟩) ?_ ext4
    (fun handled => statsSize_of_fat fat handled mounted readable)
    ((readFileFull_of_fat fat mounted).mpr readable)
  · simp [openInode, isDevPath_of_isFatPath fat, isNtfsPath_of_isFatPath fat, fat, mounted,
      readable]
  · simp [backing, mounted, readable, Except.toOption]

/-- Nothing on the disk is read back: its descriptors carry the number of NTFS. -/
theorem not_readsBack_of_disk (fat : isFatPath path = false) (disk : isDiskPath path) :
    ¬ s.ReadsBack path data := by
  rintro ⟨⟨fdNum, t, opened, through⟩, -, -⟩
  obtain ⟨table, inodeId, -, route, rfl, rfl⟩ := openFile_eq_ok_iff.mp opened
  have number := openInode_of_unreadable (isDevPath_of_isDiskPath disk) (.inr ⟨fat, disk⟩) route
  refine through.backed (descriptor_opened table inodeId) ?_
  simp [backing, number]

/-- The RAM filesystem is opened only by paths of no driver. -/
theorem openInode_of_lt (fat : isFatPath path = false) (disk : isDiskPath path = false) {fs : RamFs}
    (initialised : s.ramFs = some fs) (placed : fs.lookup path = some inodeId) :
    (∃ number, s.openInode path = .ok number ∧ number < 0x80000000) ↔
      isNtfsPath path = false ∧ isDevPath path = false ∧ inodeId < 0x80000000 := by
  unfold openInode
  cases dev : isDevPath path with
  | true => cases deviceId (devName path) <;> simp; omega
  | false =>
    cases ntfs : isNtfsPath path with
    -- a mounted NTFS volume is opened with `0x8000_0000`, which is not below the bound
    | true => cases s.ntfsMounted <;> simp
    | false => simp [fat, disk, initialised, placed]

theorem readsBack_iff_of_ram (allowed : s.MayWrite path) (fat : isFatPath path = false)
    (disk : isDiskPath path = false) {fs : RamFs} {inode : Inode} (initialised : s.ramFs = some fs)
    (placed : fs.lookup path = some inodeId) (stored : fs.inodes inodeId = some inode)
    (file : inode.inodeType = .file) (size : inode.size = UInt64.ofNat inode.data.length)
    (fits : inode.data.length < 2 ^ 64) :
    s.ReadsBack path inode.data ↔ s.fdTable.isSome ∧ s.Ext4Size path inode.data ∧
      isNtfsPath path = false ∧ isDevPath path = false ∧ s.Ext4Data path inode.data ∧
      inodeId < 0x80000000 := by
  have lookups := openInode_of_lt fat disk initialised placed
  constructor
  · rintro ⟨⟨fdNum, t, opened, through⟩, stats, full⟩
    obtain ⟨table, number, tabled, route, rfl, rfl⟩ := openFile_eq_ok_iff.mp opened
    -- the descriptor writes where the path does, so its number is one of the RAM filesystem
    have small : number < 0x80000000 :=
      through.inode_lt (descriptor_opened table number) allowed fat disk initialised placed stored
        file
    obtain ⟨ntfs, dev, small'⟩ := lookups.mp ⟨number, route, small⟩
    refine ⟨by rw [tabled]; rfl, fun handled => ?_, ntfs, dev, fun handled => ?_, small'⟩
    · exact (statsSize_iff_of_ext4 handled).mp stats handled
    · exact (readFileFull_of_ext4 fat handled).mp full handled
  · rintro ⟨tabled, ext4Size, ntfs, dev, ext4Data, small⟩
    refine @readsBack_of_route D s path _ inodeId tabled ?_ (.inr ⟨fat, disk, small⟩) ?_ ext4Size
      (fun handled => statsSize_of_ram fat disk handled initialised placed stored size) ?_
    · simp [openInode, dev, ntfs, fat, disk, initialised, placed]
    · simp [backing, small, initialised, stored, Inode.content, file]
    · cases handled : s.ext4HandlesPath path with
      | true => exact (readFileFull_of_ext4 fat handled).mpr ext4Data
      | false => exact readFileFull_of_ram fat disk handled initialised placed stored file size fits

/-! ## A machine without drivers -/

/-- Drivers without volumes. -/
def noDrivers : Drivers where
  DiskFs := Empty
  diskListFiles _ := []
  diskReadFile fs := nomatch fs
  diskWriteFile _ _ := pure ()
  Fat32Fs := Empty
  fatReadFile fs := nomatch fs
  fatWriteFile _ _ := pure ()
  Ext4Volume := Empty
  ext4ReadFile volume := nomatch volume
  ext4StatInode volume := nomatch volume
  writeCom _ _ := .ok ()

/-- A machine without disks and with nothing in its RAM filesystem. -/
def bareVfs : VfsState noDrivers where
  ramFs := some .new
  fdTable := some .new
  dirtyFiles := []
  protectedPaths := systemPaths
  bypassActive := false
  diskFs := none
  fat32Fs := none
  ntfsMounted := false
  ext4Mounts := []

/-- The bare machine takes a new file at any path of the RAM filesystem that is not
protected. -/
theorem createAndWrite_bareVfs (path : FilePath) (data : List UInt8) (now : UInt64)
    (unprotected : bareVfs.Protects path = false) (fat : isFatPath path = false)
    (disk : isDiskPath path = false) : ∃ fs, createAndWrite path data now bareVfs =
      .ok () (({ bareVfs with ramFs := some fs } : VfsState noDrivers).addDirty path) := by
  rcases RamFs.writeOrCreate_cases .new path data now with
    ⟨-, created⟩ | ⟨id, inode, found, -⟩ | ⟨e, failed⟩
  · exact ⟨_, createAndWrite_of_ram (.inr unprotected) fat disk rfl created⟩
  · cases found
  · cases failed

/-! ## The main result -/

/-- An accepted write is read back by every operation exactly if the path is routed to one
filesystem. -/
theorem createAndWrite_readsBack_iff {now : UInt64}
    (accepted : createAndWrite path data now s = .ok () s') (fits : data.length < 2 ^ 64) :
    s'.ReadsBack path data ↔ s.RoutesBack path data := by
  unfold VfsState.RoutesBack
  obtain ⟨allowed, ⟨fat, fs, fs', mounted, written, rfl⟩ | ⟨fat, disk, -⟩ |
    ⟨fat, disk, fs, fs', init, written, rfl⟩⟩ := createAndWrite_eq_ok accepted
  · -- FAT32: the write of the condition is the one that was accepted
    rw [if_pos fat, readsBack_iff_of_fat fat rfl]
    refine and_congr_right fun _ => and_congr_right fun _ => ⟨fun readable => ?_, fun keeps => ?_⟩
    · intro fs₁ fs₁' mounted₁ written₁
      cases mounted.symm.trans mounted₁
      cases written.symm.trans written₁
      exact readable
    · exact keeps fs fs' mounted written
  · -- the disk: neither side holds
    refine iff_of_false (not_readsBack_of_disk fat disk) ?_
    simp [fat, disk]
  · -- the RAM filesystem, which has the file at its number before the write or the next one
    obtain ⟨placed, inode, stored, file, rfl, size⟩ := RamFs.writeOrCreate_eq_ok written
    refine (readsBack_iff_of_ram ?_ fat disk rfl placed stored file size fits).trans ?_
    · exact allowed
    rw [if_neg (Bool.eq_false_iff.mp fat)]
    constructor
    · rintro ⟨tabled, ext4Size, ntfs, dev, ext4Data, small⟩
      refine ⟨tabled, ext4Size, disk, ntfs, dev, ext4Data, fun fs₁ initialised₁ => ?_⟩
      cases init.symm.trans initialised₁
      exact small
    · rintro ⟨tabled, ext4Size, -, ntfs, dev, ext4Data, small⟩
      exact ⟨tabled, ext4Size, ntfs, dev, ext4Data, small fs init⟩

theorem createAndWrite_readsBack_tmp : ∃ s' : VfsState noDrivers,
    createAndWrite "/tmp/a".toList [1, 2] 0 bareVfs = .ok () s' ∧
      s'.ReadsBack "/tmp/a".toList [1, 2] := by
  obtain ⟨fs, ok⟩ := createAndWrite_bareVfs "/tmp/a".toList [1, 2] 0 (by decide)
    (by decide) (by decide)
  refine ⟨_, ok, (createAndWrite_readsBack_iff ok (by decide)).mpr ?_⟩
  refine ⟨rfl, nofun, ?_⟩
  refine ⟨by decide, by decide, by decide, nofun, ?_⟩
  decide

/-- A file written below `/ntfs` goes to the RAM filesystem, but cannot be opened without
an NTFS volume. -/
theorem not_createAndWrite_readsBack :
    ¬ ∀ (D : Drivers) (s s' : VfsState D) (path : FilePath) (data : List UInt8) (now : UInt64),
      createAndWrite path data now s = .ok () s' → data.length < 2 ^ 64 →
        s'.ReadsBack path data := by
  intro always
  obtain ⟨fs, ok⟩ := createAndWrite_bareVfs "/ntfs/a".toList [1] 0 (by decide)
    (by decide) (by decide)
  obtain ⟨⟨fdNum, t, opened, -⟩, -, -⟩ := always _ _ _ _ _ _ ok (by decide)
  obtain ⟨table, inodeId, -, route, -⟩ := openFile_eq_ok_iff.mp opened
  cases route

end SmartOs.Vfs
