/-
# Storing and reading files

`smartfs/mod.rs`: `store_file` classifies and compresses the data and writes the result to the
virtual file system, through a descriptor if the path can be opened and with
`create_and_write` if not. `read_file` opens the path, reads 65536 bytes at most and returns
them as they are. How the data was compressed is not kept anywhere, so nothing is decompressed.
The chunks of the data, which `read_file` never looks at, are left out.

`readFile_storeFile_iff` says when the data comes back all the same. In the RAM filesystem it
does if it was not compressed and is not longer than one read; on FAT32 that depends on the
volume. Below `/disk` and `/ntfs` nothing is read at all, and a device is read from FAT32.
-/

import SmartOs.SmartFs.Compression
import SmartOs.Vfs.ReadBack

namespace SmartOs.SmartFs

open SmartOs.CS SmartOs.Vfs VfsState

variable {D : Drivers}

/-- The parent of a path; that of a path without a slash is the root. -/
def pathParent (path : FilePath) : FilePath :=
  match beforeLastSlash path with
  | none => ['/']
  | some [] => ['/']
  | some front => front

/-- What is written to the file system for some data. -/
def stored (h : Heuristics) (path : FilePath) (data : List UInt8) : List UInt8 :=
  compress data (selectCompression h data (h.classify data (pathFilename path)))

/-- Create a file that could not be opened. -/
def storeRaw (path : FilePath) (data : List UInt8) (now : UInt64) : VfsM D Unit :=
  if pathParent path ≠ [] ∧ pathParent path ≠ ['/'] then do
    let _ ← attempt (mkdir (pathParent path) now)
    createAndWrite path data now
  else createAndWrite path data now

def storeFile (h : Heuristics) (path : FilePath) (data : List UInt8) (now : UInt64) :
    VfsM D Unit := do
  let _ ← attempt (mkdir (pathParent path) now)
  match ← attempt (openFile path) with
  | .error _ => storeRaw path (stored h path data) now
  | .ok fd => do
    let _ ← write fd (stored h path data) now
    let _ ← attempt (close fd)
    return ()

def readFile (path : FilePath) : VfsM D (List UInt8) := do
  let fd ← openFile path
  let bytes ← read fd 65536
  let _ ← attempt (close fd)
  return bytes

/-! ## Reading -/

variable {bytes : List UInt8}

section Reading

variable {s u : VfsState D} {path : FilePath}

theorem finalState_close {fdNum : ℕ} : ∃ fdTable,
    finalState (close fdNum u) = { u with fdTable } ∧ fdTable.isSome = u.fdTable.isSome := by
  cases tabled : u.fdTable with
  | none =>
    have failed : close fdNum u = .error "FD table not initialized" u := by simp [close, tabled]
    exact ⟨u.fdTable, by rw [failed, finalState_error], by rw [tabled]⟩
  | some table =>
    cases entry : table.fds fdNum with
    | none =>
      have failed : close fdNum u = .error "Invalid fd" u := by simp [close, tabled, entry]
      exact ⟨u.fdTable, by rw [failed, finalState_error], by rw [tabled]⟩
    | some fd =>
      have closed : close fdNum u = .ok () { u with
          fdTable := some { table with fds := Function.update table.fds fdNum none } } := by
        simp [close, tabled, entry]
      exact ⟨some { table with fds := Function.update table.fds fdNum none },
        by rw [closed, finalState_ok], rfl⟩

/-- Opening a file, reading it once and closing it changes only the descriptors. -/
theorem openRead_eq {number : ℕ} {data : List UInt8} (tabled : s.fdTable.isSome)
    (route : s.openInode path = .ok number) (backed : s.backing ⟨number, path, 0⟩ = some data)
    (len : ℕ) {α : Type} (f : List UInt8 → α) : ∃ fdTable, (do
      let fd ← openFile path
      let bytes ← read fd len
      let _ ← attempt (close fd)
      return f bytes : VfsM D α) s = .ok (f (data.take len)) { s with fdTable } := by
  obtain ⟨table, tabled⟩ := Option.isSome_iff_exists.mp tabled
  have opened := openFile_eq_ok_iff.mpr ⟨table, number, tabled, route, rfl, rfl⟩
  have given := read_of_backing (s := s.opened table number path)
    (descriptor_opened table number) backed len
  obtain ⟨fdTable, closed, -⟩ := @finalState_close D
    ((s.opened table number path).moved table.nextFd (slice data 0 len).length) table.nextFd
  refine ⟨fdTable, ?_⟩
  rw [bind_of_ok opened, bind_of_ok given, attempt_bind_const, closed]
  rfl

theorem readFile_eq_ok_iff :
    (∃ t, readFile path s = .ok bytes t) ↔ s.fdTable.isSome ∧ ∃ number data,
      s.openInode path = .ok number ∧ s.backing ⟨number, path, 0⟩ = some data ∧
        data.take 65536 = bytes := by
  constructor
  · rintro ⟨t, ok⟩
    obtain ⟨fdNum, u, opened, rest⟩ := bind_eq_ok_iff.mp ok
    obtain ⟨table, number, tabled, route, rfl, rfl⟩ := openFile_eq_ok_iff.mp opened
    obtain ⟨bytes', v, result, last⟩ := bind_eq_ok_iff.mp rest
    rw [attempt_bind_const] at last
    cases last
    refine ⟨by rw [tabled]; rfl, number, ?_⟩
    cases backed : (s.opened table number path).backing ⟨number, path, 0⟩ with
    | none =>
      obtain ⟨e, failed⟩ := read_of_not_backing (descriptor_opened table number) backed 65536
      cases failed.symm.trans result
    | some data =>
      have given := read_of_backing (descriptor_opened table number) backed 65536
      cases given.symm.trans result
      exact ⟨data, route, backed, by rw [slice, List.drop_zero]⟩
  · rintro ⟨tabled, number, data, route, backed, rfl⟩
    obtain ⟨fdTable, done⟩ := openRead_eq tabled route backed 65536 id
    exact ⟨_, done⟩

end Reading

/-! ## Writing -/

section Writing

variable {h : Heuristics} {s s' t u : VfsState D} {path : FilePath} {data : List UInt8}
  {now : UInt64} {fdNum number : ℕ}

/-- The state with the parent directory, in which `store_file` looks for the file. -/
def prepared (s : VfsState D) (path : FilePath) (now : UInt64) : VfsState D :=
  finalState (mkdir (pathParent path) now s)

theorem finalState_ramFs_mkdir_mkdir (fs : RamFs) (dir : FilePath) :
    finalState (RamFs.mkdir dir now (finalState (RamFs.mkdir dir now fs))) =
      finalState (RamFs.mkdir dir now fs) := by
  cases found : fs.pathMap dir with
  | some id => simp [RamFs.mkdir, found]
  | none => simp [RamFs.mkdir, found, RamFs.addInode]

theorem finalState_mkdir_mkdir (dir : FilePath) :
    finalState (mkdir dir now (finalState (mkdir dir now s))) = finalState (mkdir dir now s) := by
  unfold mkdir
  split
  · rfl
  simp only [onRamFs, finalState_zoom]
  cases init : s.ramFs with
  | none => simp [init]
  | some fs => simp [finalState_ramFs_mkdir_mkdir]

theorem openFile_eq_error {e : String} (failed : openFile path s = .error e u) :
    u = s ∧ (s.fdTable = none ∨ ∃ e, s.openInode path = .error e) := by
  unfold openFile openFd at failed
  cases route : s.openInode path with
  | error e' =>
    simp only [get_bind_apply, route] at failed
    cases failed
    exact ⟨rfl, .inr ⟨_, rfl⟩⟩
  | ok number =>
    cases tabled : s.fdTable with
    | none =>
      simp only [get_bind_apply, route, ofExcept_ok_bind, tabled] at failed
      cases failed
      exact ⟨rfl, .inl rfl⟩
    | some table => simp [route, tabled] at failed

theorem write_eq_ok {length : ℕ} (found : s.descriptor fdNum = some ⟨number, path, 0⟩)
    (written : write fdNum data now s = .ok length u) : (0xA0000000 ≤ number ∧ u = s) ∨
      (0x90000000 ≤ number ∧ number < 0xA0000000 ∧ ∃ fs fs', s.fat32Fs = some fs ∧
        D.fatWriteFile (fatSubpath path) data fs = .ok () fs' ∧
        u = { s with fat32Fs := some fs' }) ∨
      (0x80000000 ≤ number ∧ number < 0x90000000 ∧ ∃ fs fs', s.diskFs = some fs ∧
        D.diskWriteFile (diskFilename path) data fs = .ok () fs' ∧
        u = { s with diskFs := some fs' }) ∨
      (number < 0x80000000 ∧ ∃ fs fs', s.ramFs = some fs ∧
        RamFs.writeOrCreate path data now fs = .ok () fs' ∧
        u = ({ s with ramFs := some fs' } : VfsState D).addDirty path) := by
  by_cases allowed : s.MayWrite path
  · rw [write_of_allowed found allowed] at written
    split_ifs at written with device fat disk
    · have same : finalState (writeDevice (number - 0xA0000000) data s) = s :=
        finalState_writeDevice _
      rw [written] at same
      exact .inl ⟨device, same⟩
    · obtain ⟨_, done, -⟩ := map_eq_ok_iff.mp written
      exact .inr (.inl ⟨fat, not_le.mp device, zoom_eq_ok_iff.mp done⟩)
    · obtain ⟨_, done, -⟩ := map_eq_ok_iff.mp written
      exact .inr (.inr (.inl ⟨disk, not_le.mp fat, zoom_eq_ok_iff.mp done⟩))
    · obtain ⟨_, done, -⟩ := map_eq_ok_iff.mp written
      obtain ⟨_, v, ram, marked⟩ := bind_eq_ok_iff.mp done
      obtain ⟨fs, fs', initialised, result, rfl⟩ := zoom_eq_ok_iff.mp ram
      cases marked
      exact .inr (.inr (.inr ⟨not_le.mp disk, fs, fs', initialised, result, rfl⟩))
  · rw [write_of_refused found allowed] at written
    cases written

/-- What a successful store did: it wrote through a descriptor, or created the file because
none could be opened. -/
theorem storeFile_eq_ok (done : storeFile h path data now s = .ok () s') :
    (createAndWrite path (stored h path data) now (prepared s path now) = .ok () s' ∧
        ((prepared s path now).fdTable = none ∨
          ∃ e, (prepared s path now).openInode path = .error e)) ∨
      ∃ table number length u, (prepared s path now).fdTable = some table ∧
        (prepared s path now).openInode path = .ok number ∧
        write table.nextFd (stored h path data) now
          ((prepared s path now).opened table number path) = .ok length u ∧
        s' = finalState (close table.nextFd u) := by
  unfold storeFile at done
  rw [attempt_bind_const] at done
  change (attempt (openFile path) >>= _) (prepared s path now) = _ at done
  have twice : finalState (mkdir (pathParent path) now (prepared s path now)) =
    prepared s path now := finalState_mkdir_mkdir (pathParent path)
  generalize prepared s path now = t at *
  cases opened : openFile path t with
  | ok fd v =>
    right
    obtain ⟨table, number, tabled, route, rfl, rfl⟩ := openFile_eq_ok_iff.mp opened
    rw [attempt_bind_of_ok opened] at done
    obtain ⟨length, u, written, rest⟩ := bind_eq_ok_iff.mp done
    rw [attempt_bind_const] at rest
    cases rest
    exact ⟨table, number, length, u, tabled, route, written, rfl⟩
  | error e v =>
    left
    obtain ⟨rfl, reason⟩ := openFile_eq_error opened
    rw [attempt_bind_of_error opened] at done
    refine ⟨?_, reason⟩
    change storeRaw path (stored h path data) now v = _ at done
    unfold storeRaw at done
    split at done
    · rwa [attempt_bind_const, twice] at done
    · exact done

/-! ## Where the data is afterwards -/

/-- The number in the descriptor that `read_file` opens after a store. The disk and NTFS have
numbers that cannot be read. -/
def storedNumber (t : VfsState D) (path : FilePath) : Option ℕ :=
  if isDevPath path then (deviceId (devName path)).map (0xA0000000 + ·)
  else if isNtfsPath path then none
  else if isFatPath path then some 0x90000000
  else if isDiskPath path then none
  else t.ramFs.map (·.target path)

/-- The store is a write to FAT32: by the path, or by the number of the inode. -/
def writesFat (t : VfsState D) (path : FilePath) : Bool :=
  isFatPath path ||
    match t.openInode path with
    | .ok number => 0x90000000 ≤ number && number < 0xA0000000
    | .error _ => false

/-- The FAT32 volume after the store. -/
def fatAfter (t : VfsState D) (path : FilePath) (bytes : List UInt8) : Option D.Fat32Fs :=
  if writesFat t path then
    t.fat32Fs.map fun fs => finalState (D.fatWriteFile (fatSubpath path) bytes fs)
  else t.fat32Fs

/-- A descriptor with this number reads the data: from the RAM filesystem, if the data is not
compressed and not longer than one read, or from FAT32, if the volume has the data there. -/
def ServesNumber (h : Heuristics) (volume : Option D.Fat32Fs) (path : FilePath)
    (data : List UInt8) (number : ℕ) : Prop :=
  (number < 0x80000000 ∧ data.length ≤ 65536 ∧
      selectCompression h data (h.classify data (pathFilename path)) = .none) ∨
    (0x90000000 ≤ number ∧ ∃ fs bytes, volume = some fs ∧
      D.fatReadFile fs (fatSubpath path) = .ok bytes ∧ bytes.take 65536 = data)

/-- The condition under which data is read back. -/
def ServesStored (h : Heuristics) (s : VfsState D) (path : FilePath) (data : List UInt8)
    (now : UInt64) : Prop :=
  (prepared s path now).fdTable.isSome ∧
    ∃ number, storedNumber (prepared s path now) path = some number ∧
      ServesNumber h (fatAfter (prepared s path now) path (stored h path data)) path data number

theorem fdTable_of_storeFile (done : storeFile h path data now s = .ok () s') :
    s'.fdTable.isSome = (prepared s path now).fdTable.isSome := by
  obtain ⟨created, -⟩ | ⟨table, number, length, u, tabled, -, written, rfl⟩ := storeFile_eq_ok done
  · obtain ⟨-, ⟨-, -, -, -, -, rfl⟩ | ⟨-, -, -, -, -, -, rfl⟩ | ⟨-, -, -, -, -, -, rfl⟩⟩ :=
      createAndWrite_eq_ok created <;> rfl
  obtain ⟨fdTable, closed, same⟩ := finalState_close
  rw [closed, tabled]
  rw [same]
  obtain ⟨-, rfl⟩ | ⟨-, -, -, -, -, -, rfl⟩ | ⟨-, -, -, -, -, -, rfl⟩ | ⟨-, -, -, -, -, rfl⟩ :=
    write_eq_ok (descriptor_opened table number) written <;> rfl

theorem openInode_of_fat (fat : isFatPath path) (route : t.openInode path = .ok number) :
    number = 0x90000000 := by
  simp only [openInode, isDevPath_of_isFatPath fat, isNtfsPath_of_isFatPath fat, fat,
    Bool.false_eq_true, if_false, if_true] at route
  split at route
  · cases route
  split at route
  · cases route
  · cases route
    rfl

theorem fat32Fs_of_storeFile (done : storeFile h path data now s = .ok () s')
    (descriptors : (prepared s path now).fdTable.isSome) :
    s'.fat32Fs = fatAfter (prepared s path now) path (stored h path data) := by
  obtain ⟨created, unopened⟩ | ⟨table, number, length, u, tabled, route, written, rfl⟩ :=
    storeFile_eq_ok done
  · obtain ⟨e, failed⟩ := unopened.resolve_left fun missing => by simp [missing] at descriptors
    have route : writesFat (prepared s path now) path = isFatPath path := by
      simp [writesFat, failed]
    rw [fatAfter, route]
    obtain ⟨-, ⟨fat, fs, fs', mounted, wrote, rfl⟩ | ⟨fat, -, -, -, -, -, rfl⟩ |
      ⟨fat, -, -, -, -, -, rfl⟩⟩ := createAndWrite_eq_ok created
    · simp [fat, mounted, wrote]
    · simp [fat]
    · simp [fat, addDirty]
  · obtain ⟨fdTable, closed, -⟩ := finalState_close
    rw [closed]
    -- a path of FAT32 has the number of FAT32, so any other number means another path
    have kept (outside : ¬(0x90000000 ≤ number ∧ number < 0xA0000000)) :
        fatAfter (prepared s path now) path (stored h path data) =
          (prepared s path now).fat32Fs := by
      have fat : isFatPath path = false := by
        rw [Bool.eq_false_iff]
        intro fat
        have := openInode_of_fat fat route
        omega
      refine if_neg ?_
      simp only [writesFat, fat, route, Bool.false_or, Bool.and_eq_true, decide_eq_true_eq]
      exact outside
    obtain ⟨high, rfl⟩ | ⟨low, high, fs, fs', mounted, wrote, rfl⟩ |
      ⟨-, high, -, -, -, -, rfl⟩ | ⟨high, -, -, -, -, rfl⟩ :=
      write_eq_ok (descriptor_opened table number) written
    · exact (kept (by omega)).symm
    · have fat : writesFat (prepared s path now) path := by
        simp [writesFat, route, low, high]
      have volume : (prepared s path now).fat32Fs = some fs := mounted
      simp [fatAfter, fat, volume, wrote]
    · exact (kept (by omega)).symm
    · exact (kept (by omega)).symm

/-- A path of the RAM filesystem leads to the stored data, unless its number is one of a
driver. -/
theorem ramFs_of_storeFile (done : storeFile h path data now s = .ok () s')
    (dev : isDevPath path = false) (ntfs : isNtfsPath path = false) (fat : isFatPath path = false)
    (disk : isDiskPath path = false) :
    ∃ fs fs', (prepared s path now).ramFs = some fs ∧ s'.ramFs = some fs' ∧
      fs'.lookup path = some (fs.target path) ∧ (fs.target path < 0x80000000 →
        (fs'.inodes (fs.target path)).bind Inode.content = some (stored h path data)) := by
  -- the file that `write_or_create` leaves
  have wrote {fs fs' : RamFs}
      (result : RamFs.writeOrCreate path (stored h path data) now fs = .ok () fs') :
      fs'.lookup path = some (fs.target path) ∧
        (fs'.inodes (fs.target path)).bind Inode.content = some (stored h path data) := by
    obtain ⟨placed, inode, found, file, content, -⟩ := RamFs.writeOrCreate_eq_ok result
    exact ⟨placed, by simp [found, Inode.content, file, content]⟩
  obtain ⟨created, -⟩ | ⟨table, number, length, u, tabled, route, written, rfl⟩ :=
    storeFile_eq_ok done
  · obtain ⟨-, ⟨fat', -⟩ | ⟨-, disk', -⟩ | ⟨-, -, fs, fs', init, result, rfl⟩⟩ :=
      createAndWrite_eq_ok created
    · simp [fat] at fat'
    · simp [disk] at disk'
    · exact ⟨fs, fs', init, rfl, (wrote result).1, fun _ => (wrote result).2⟩
  · obtain ⟨fdTable, closed, -⟩ := finalState_close
    rw [closed]
    obtain ⟨fs, init, placed⟩ : ∃ fs, (prepared s path now).ramFs = some fs ∧
        fs.lookup path = some number := by
      simp only [openInode, dev, ntfs, fat, disk, Bool.false_eq_true, if_false] at route
      split at route
      · cases route
      next fs init =>
        split at route
        · cases route
        next id placed =>
          cases route
          exact ⟨fs, init, placed⟩
    have target : fs.target path = number := by rw [RamFs.target, placed, Option.getD_some]
    obtain ⟨high, rfl⟩ | ⟨low, -, -, -, -, -, rfl⟩ | ⟨low, -, -, -, -, -, rfl⟩ |
      ⟨-, fs₁, fs', initialised₁, result, rfl⟩ :=
      write_eq_ok (descriptor_opened table number) written
    iterate 3
      · exact ⟨fs, fs, init, init, target ▸ placed, fun small => by omega⟩
    · cases init.symm.trans initialised₁
      exact ⟨fs, fs', init, rfl, (wrote result).1, fun _ => (wrote result).2⟩

/-! ## The round trip -/

/-- A number from `0x9000_0000` on is read from FAT32. -/
theorem backing_eq_some_iff_of_ge (high : 0x90000000 ≤ number) :
    s.backing ⟨number, path, 0⟩ = some bytes ↔
      ∃ fs, s.fat32Fs = some fs ∧ D.fatReadFile fs (fatSubpath path) = .ok bytes := by
  simp [backing, show ¬number < 0x80000000 by omega, show ¬number < 0x90000000 by omega,
    Option.bind_eq_some_iff, toOption_eq_some_iff]

/-- What is read through the number that a path is opened with. -/
theorem reads_iff_servesNumber {volume : Option D.Fat32Fs} (mounted : s'.fat32Fs = volume)
    (route : s'.openInode path = .ok number)
    (ram : number < 0x80000000 → s'.backing ⟨number, path, 0⟩ = some (stored h path data)) :
    (∃ n bytes, s'.openInode path = .ok n ∧ s'.backing ⟨n, path, 0⟩ = some bytes ∧
        bytes.take 65536 = data) ↔ ServesNumber h volume path data number := by
  have unchanged := compress_take_eq_iff h data (h.classify data (pathFilename path))
  change (stored h path data).take 65536 = data ↔ _ at unchanged
  subst mounted
  constructor
  · rintro ⟨n, bytes, route', backed, taken⟩
    obtain rfl := Except.ok.inj (route.symm.trans route')
    by_cases small : number < 0x80000000
    · rw [ram small, Option.some.injEq] at backed
      rw [← backed, unchanged] at taken
      exact .inl ⟨small, taken.2, taken.1⟩
    have high : 0x90000000 ≤ number := by
      by_contra low
      simp only [backing, small, not_le.mp low] at backed
      cases backed
    obtain ⟨fs, mounted, readable⟩ := (backing_eq_some_iff_of_ge high).mp backed
    exact .inr ⟨high, fs, bytes, mounted, readable, taken⟩
  · rintro (⟨small, fits, plain⟩ | ⟨high, fs, bytes, mounted, readable, taken⟩)
    · exact ⟨number, _, route, ram small, unchanged.mpr ⟨plain, fits⟩⟩
    · exact ⟨number, bytes, route,
        (backing_eq_some_iff_of_ge high).mpr ⟨fs, mounted, readable⟩, taken⟩

/-- What was stored is read back exactly under the condition `ServesStored`. -/
theorem readFile_storeFile_iff (done : storeFile h path data now s = .ok () s') :
    (∃ t, readFile path s' = .ok data t) ↔ ServesStored h s path data now := by
  rw [readFile_eq_ok_iff, fdTable_of_storeFile done]
  refine and_congr_right fun descriptors => ?_
  have volume := fat32Fs_of_storeFile done descriptors
  have ram := ramFs_of_storeFile done
  have nowhere (dev : isDevPath path = false)
      (unreadable : isNtfsPath path ∨ isFatPath path = false ∧ isDiskPath path) :
      ¬∃ n bytes, s'.openInode path = .ok n ∧ s'.backing ⟨n, path, 0⟩ = some bytes ∧
        bytes.take 65536 = data := by
    rintro ⟨n, bytes, route, backed, -⟩
    rw [openInode_of_unreadable dev unreadable route] at backed
    cases backed
  -- one case for every place that a path can lead to
  unfold storedNumber
  cases dev : isDevPath path with
  | true =>
    cases device : deviceId (devName path) with
    | none => simp [openInode, dev, device]
    | some id =>
      have route : s'.openInode path = .ok (0xA0000000 + id) := by
        simp [openInode, dev, device]
      rw [reads_iff_servesNumber (h := h) volume route (by omega)]
      simp
  | false =>
    cases ntfs : isNtfsPath path with
    | true => simpa using nowhere dev (.inl ntfs)
    | false =>
      cases fat : isFatPath path with
      | true =>
        -- the file can be opened if it can be read, and then it has the number of FAT32
        simp only [Bool.false_eq_true, if_false, if_true, Option.some.injEq, exists_eq_left']
        constructor
        · rintro ⟨n, bytes, route, rest⟩
          obtain rfl := openInode_of_fat fat route
          exact (reads_iff_servesNumber volume route (by omega)).mp ⟨_, bytes, route, rest⟩
        rintro (⟨small, -⟩ | ⟨high, fs, bytes, mounted, readable, taken⟩)
        · omega
        rw [← volume] at mounted
        refine ⟨0x90000000, bytes, ?_,
          (backing_eq_some_iff_of_ge high).mpr ⟨fs, mounted, readable⟩, taken⟩
        simp [openInode, dev, ntfs, fat, mounted, readable]
      | false =>
        cases disk : isDiskPath path with
        | true => simpa using nowhere dev (.inr ⟨fat, disk⟩)
        | false =>
          obtain ⟨fs, fs', init, initialised', placed, content⟩ := ram dev ntfs fat disk
          have route : s'.openInode path = .ok (fs.target path) := by
            simp [openInode, dev, ntfs, fat, disk, initialised', placed]
          have backed : fs.target path < 0x80000000 →
              s'.backing ⟨fs.target path, path, 0⟩ = some (stored h path data) := fun small => by
            simp [backing, small, initialised', content small]
          rw [reads_iff_servesNumber volume route backed]
          simp [init]

end Writing

/-! ## Two files -/

/-- Heuristics that take everything for text. -/
def allText : Heuristics := ⟨fun _ _ => .text, fun _ => false⟩

/-- What is read from a file of the bare machine after some data was stored in it. -/
def readAfterStore (h : Heuristics) (path : FilePath) (data : List UInt8) : Option (List UInt8) :=
  match storeFile h path data 0 bareVfs with
  | .error _ _ => none
  | .ok _ s' =>
    match readFile path s' with
    | .error _ _ => none
    | .ok bytes _ => some bytes

theorem readAfterStore_eq_some {h : Heuristics} {path : FilePath} {data : List UInt8}
    (given : readAfterStore h path data = some bytes) : ∃ s' t : VfsState noDrivers,
      storeFile h path data 0 bareVfs = .ok () s' ∧ readFile path s' = .ok bytes t := by
  unfold readAfterStore at given
  split at given
  · cases given
  next s' done =>
    split at given
    · cases given
    next bytes' t result =>
      cases given
      exact ⟨s', t, done, result⟩

theorem readFile_storeFile_short : ∃ s' : VfsState noDrivers,
    storeFile allText "/tmp/a".toList [1, 2] 0 bareVfs = .ok () s' ∧
      ∃ t, readFile "/tmp/a".toList s' = .ok [1, 2] t := by
  obtain ⟨s', t, done, -⟩ := readAfterStore_eq_some
    (show readAfterStore allText "/tmp/a".toList [1, 2] = some [1, 2] by decide +kernel)
  refine ⟨s', done, (readFile_storeFile_iff done).mpr ⟨rfl, 2, rfl, .inl ⟨?_, ?_, rfl⟩⟩⟩ <;> decide

/-- A text of 64 equal characters comes back compressed. -/
theorem readFile_returns_compressed :
    ¬∀ (D : Drivers) (h : Heuristics) (s s' : VfsState D) (path : FilePath) (data : List UInt8)
      (now : UInt64), storeFile h path data now s = .ok () s' →
        ∃ t, readFile path s' = .ok data t := by
  intro always
  have compressed : readAfterStore allText "/tmp/a".toList (List.replicate 64 97) =
      some [0x1F, 97, 1, 0, 44] := by
    decide +kernel
  obtain ⟨s', t, done, given⟩ := readAfterStore_eq_some compressed
  obtain ⟨t', wanted⟩ := always _ _ _ _ _ _ _ done
  cases given.symm.trans wanted

end SmartOs.SmartFs
