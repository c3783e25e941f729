/-
# Protected paths

Writes are refused below the protected paths unless the protection is bypassed. The check
is made when a file is written or created, through a descriptor or by its path, but not
when a directory is made or a file is deleted. So protected files keep their content in
runs that make no protected directory and delete no protected file, and not in others.

An inode is shared by no two paths, which is why a write to an unprotected path cannot
reach a protected file of the RAM filesystem. What a write to one file of a driver does to
the others is up to the driver.
-/

import SmartOs.CS.Run
import SmartOs.Vfs.ReadBack

namespace SmartOs.Vfs

open SmartOs.CS Option VfsState

variable {D : Drivers} {s t u : VfsState D} {path : FilePath}

/-! ## Operations as events -/

/-- A call to the VFS. The time is the clock at the call. -/
inductive Event where
  | openFile (path : FilePath)
  | close (fdNum : ℕ)
  | read (fdNum len : ℕ)
  | write (fdNum : ℕ) (data : List UInt8) (now : UInt64)
  | mkdir (path : FilePath) (now : UInt64)
  | stat (path : FilePath)
  | createAndWrite (path : FilePath) (data : List UInt8) (now : UInt64)
  | deleteFile (path : FilePath)
  | readFileFull (path : FilePath)

/-- The state after a call, whether it succeeded or failed. -/
def VfsState.step (s : VfsState D) : Event → VfsState D
  | .openFile path => finalState (openFile path s)
  | .close fdNum => finalState (close fdNum s)
  | .read fdNum len => finalState (read fdNum len s)
  | .write fdNum data now => finalState (write fdNum data now s)
  | .mkdir path now => finalState (mkdir path now s)
  | .stat path => finalState (stat path s)
  | .createAndWrite path data now => finalState (createAndWrite path data now s)
  | .deleteFile path => finalState (deleteFile path s)
  | .readFileFull path => finalState (readFileFull path s)

def VfsState.Step (s : VfsState D) (e : Event) (t : VfsState D) : Prop := t = s.step e

/-! ## What is at a path -/

/-- Whether the path exists, and the bytes of the file there. -/
def VfsState.entry (s : VfsState D) (path : FilePath) : Bool × Option (List UInt8) :=
  if isFatPath path then
    -- FAT32 has no other test for a file than reading it
    let data := s.fat32Fs.bind fun fs => (D.fatReadFile fs (fatSubpath path)).toOption
    (data.isSome, data)
  else if isDiskPath path then
    let name := diskFilename path
    (s.diskFs.any fun fs => (D.diskListFiles fs).contains name,
      s.diskFs.bind fun fs => (D.diskReadFile fs name).toOption)
  else
    (s.ramFs.any fun fs => (fs.lookup path).isSome, s.ramFs.bind fun fs => fs.content path)

/-- Nothing changed at the protected paths, nor in the protection. -/
structure VfsState.Unharmed (s t : VfsState D) : Prop where
  paths : t.protectedPaths = s.protectedPaths
  bypass : t.bypassActive = s.bypassActive
  entries : ∀ path, s.Protects path → t.entry path = s.entry path

theorem VfsState.Unharmed.protects (unharmed : s.Unharmed t) :
    t.Protects path = s.Protects path := by
  unfold VfsState.Protects
  rw [unharmed.paths]

instance : Std.Refl (VfsState.Unharmed (D := D)) where
  refl _ := ⟨rfl, rfl, fun _ _ => rfl⟩

instance : IsTrans (VfsState D) VfsState.Unharmed where
  trans _ _ _ first second :=
    ⟨second.paths.trans first.paths, second.bypass.trans first.bypass, fun path protect =>
      (second.entries path ((first.protects).trans protect)).trans
        (first.entries path protect)⟩

/-! ## Calls that do no harm -/

/-- Writing a file of FAT32 leaves the protected files of FAT32 alone. -/
def VfsState.FatKeeps (s : VfsState D) (sub : FilePath) (data : List UInt8) : Prop :=
  ∀ fs, s.fat32Fs = some fs → ∀ path, s.Protects path → isFatPath path →
    (D.fatReadFile (finalState (D.fatWriteFile sub data fs)) (fatSubpath path)).toOption =
      (D.fatReadFile fs (fatSubpath path)).toOption

/-- Writing a file of the disk leaves the protected files of the disk alone. -/
def VfsState.DiskKeeps (s : VfsState D) (name : FilePath) (data : List UInt8) : Prop :=
  ∀ fs, s.diskFs = some fs → ∀ path, s.Protects path → isDiskPath path →
    let fs' := finalState (D.diskWriteFile name data fs)
    (D.diskListFiles fs').contains (diskFilename path) =
        (D.diskListFiles fs).contains (diskFilename path) ∧
      (D.diskReadFile fs' (diskFilename path)).toOption =
        (D.diskReadFile fs (diskFilename path)).toOption

/-- The condition on a call under which it does no harm: it makes no protected directory
and deletes no protected file, and a write that goes to a driver keeps to its file. -/
def VfsState.Respects (s : VfsState D) : Event → Prop
  | .mkdir path _ => s.Protects path → isFatPath path ∨ isDiskPath path ∨
      ∀ fs, s.ramFs = some fs → fs.lookup path ≠ none
  | .deleteFile path => s.Protects path → isFatPath path ∨ isDiskPath path ∨
      ∀ fs id inode, s.ramFs = some fs → fs.lookup path = some id → fs.inodes id = some inode →
        inode.inodeType = .directory
  | .createAndWrite path data _ => s.Protects path = false →
      (isFatPath path → s.FatKeeps (fatSubpath path) data) ∧
        (isDiskPath path → s.DiskKeeps (diskFilename path) data)
  | .write fdNum data _ => ∀ fd, s.descriptor fdNum = some fd → s.Protects fd.path = false →
      (0x90000000 ≤ fd.inodeId → fd.inodeId < 0xA0000000 → s.FatKeeps (fatSubpath fd.path) data) ∧
        (0x80000000 ≤ fd.inodeId → fd.inodeId < 0x90000000 →
          s.DiskKeeps (diskFilename fd.path) data)
  | _ => True

/-! ## Steps -/

theorem unharmed_of_same (paths : t.protectedPaths = s.protectedPaths)
    (bypass : t.bypassActive = s.bypassActive) (ram : t.ramFs = s.ramFs)
    (disk : t.diskFs = s.diskFs) (fat : t.fat32Fs = s.fat32Fs) : s.Unharmed t where
  paths
  bypass
  entries path _ := by simp [entry, ram, disk, fat]

theorem finalState_getFd (fdNum : ℕ) : finalState (getFd fdNum s) = s := by
  cases tabled : s.fdTable <;> simp [getFd, tabled]

theorem getFd_of_none {fdNum : ℕ} (missing : s.descriptor fdNum = none) :
    ∃ e, getFd fdNum s = .error e s := by
  unfold descriptor at missing
  cases tabled : s.fdTable with
  | none => exact ⟨"FD table not initialized", by simp [getFd, tabled]⟩
  | some table =>
    have entry : table.fds fdNum = none := by simpa [tabled] using missing
    exact ⟨"Invalid fd", by simp [getFd, tabled, entry, orThrow]⟩

theorem finalState_fatRead (sub : FilePath) : finalState (fatRead sub s) = s := by
  cases mounted : s.fat32Fs <;> simp [fatRead, mounted]

theorem finalState_diskRead (name : FilePath) : finalState (diskRead name s) = s := by
  cases mounted : s.diskFs <;> simp [diskRead, mounted]

theorem keeps_openFile : Keeps VfsState.Unharmed (openFile path) s := by
  refine .get_bind (.bind_unchanged (finalState_ofExcept _ s) fun inodeId => ?_)
  refine .get_bind (.bind_unchanged (finalState_orThrow _ _ s) fun table => ?_)
  exact unharmed_of_same rfl rfl rfl rfl rfl

theorem keeps_close (fdNum : ℕ) : Keeps VfsState.Unharmed (close fdNum) s := by
  refine .get_bind (.bind_unchanged (finalState_orThrow _ _ s) fun table => ?_)
  refine .bind_unchanged (finalState_orThrow _ _ s) fun _ => ?_
  exact unharmed_of_same rfl rfl rfl rfl rfl

theorem keeps_advance (fdNum : ℕ) (bytes : List UInt8) :
    Keeps VfsState.Unharmed (advance fdNum bytes) s := by
  refine .get_bind (.bind_unchanged (finalState_orThrow _ _ s) fun table => ?_)
  exact unharmed_of_same rfl rfl rfl rfl rfl

theorem keeps_read (fdNum len : ℕ) : Keeps VfsState.Unharmed (read fdNum len) s := by
  refine .get_bind (.bind_unchanged (finalState_getFd fdNum) fun fd => ?_)
  split_ifs
  · exact .of_unchanged rfl
  · exact .bind_unchanged (finalState_ofExcept _ s) fun _ => .of_unchanged rfl
  · exact .bind_unchanged (finalState_fatRead _) fun _ => keeps_advance fdNum _
  · exact .bind_unchanged (finalState_diskRead _) fun _ => keeps_advance fdNum _
  · refine .bind_unchanged (finalState_orThrow _ _ s) fun fs => ?_
    exact .bind_unchanged (finalState_ofExcept _ s) fun _ => keeps_advance fdNum _

theorem keeps_stat : Keeps VfsState.Unharmed (stat path) s := by
  refine .get_bind ?_
  split_ifs
  · exact .bind_unchanged (finalState_orThrow _ _ s) fun _ => .of_unchanged rfl
  · exact .bind_unchanged (finalState_fatRead _) fun _ => .of_unchanged rfl
  · exact .bind_unchanged (finalState_diskRead _) fun _ => .of_unchanged rfl
  · exact .bind_unchanged (finalState_orThrow _ _ s) fun _ =>
      .of_unchanged (finalState_ofExcept _ s)

theorem keeps_readFileFull : Keeps VfsState.Unharmed (readFileFull path) s := by
  refine .get_bind ?_
  split_ifs
  · exact .of_unchanged (finalState_fatRead _)
  · exact .of_unchanged (finalState_orThrow _ _ s)
  · exact .of_unchanged (finalState_diskRead _)
  refine .bind_unchanged (finalState_orThrow _ _ s) fun fs => ?_
  refine .bind_unchanged (finalState_orThrow _ _ s) fun inodeId => ?_
  refine .bind_unchanged (finalState_ofExcept _ s) fun metadata => ?_
  exact .bind_unchanged (finalState_ofExcept _ s) fun _ => .of_unchanged rfl

/-- A change at one path of the RAM filesystem is harmless if the path is not protected or
belongs to another filesystem. -/
theorem keeps_onRamFs {α : Type} {x : EStateM String RamFs α}
    (hidden : s.Protects path → isFatPath path ∨ isDiskPath path)
    (same : ∀ fs, s.ramFs = some fs → Keeps (RamFs.SameExcept path) x fs) :
    Keeps VfsState.Unharmed (onRamFs x) s := by
  refine keeps_zoom fun fs init => ⟨rfl, rfl, fun other protect => ?_⟩
  simp only [entry, init]
  split_ifs with fat disk
  · rfl
  · rfl
  -- the two paths differ, and then they have different inodes
  have ne : other ≠ path := by
    rintro rfl
    rcases hidden protect with fat' | disk'
    · exact fat fat'
    · exact disk disk'
  obtain ⟨lookup, content⟩ := same fs init other ne
  simp [RamFs.lookup, lookup, content]

theorem finalState_onRamFs {α : Type} {x : EStateM String RamFs α}
    (same : ∀ fs, s.ramFs = some fs → finalState (x fs) = fs) : finalState (onRamFs x s) = s := by
  rw [onRamFs, finalState_zoom]
  cases init : s.ramFs with
  | none => rfl
  | some fs => rw [elim_some, same fs init, ← init]

variable {data : List UInt8}

theorem keeps_onFat32 {sub : FilePath} (keeps : s.FatKeeps sub data) :
    Keeps VfsState.Unharmed (onFat32 (D.fatWriteFile sub data)) s := by
  refine keeps_zoom fun fs mounted => ⟨rfl, rfl, fun other protect => ?_⟩
  simp only [entry, mounted]
  split_ifs with fat
  · simp [keeps fs mounted other protect fat]
  · rfl
  · rfl

theorem keeps_onDiskFs {name : FilePath} (keeps : s.DiskKeeps name data) :
    Keeps VfsState.Unharmed (onDiskFs (D.diskWriteFile name data)) s := by
  refine keeps_zoom fun fs mounted => ⟨rfl, rfl, fun other protect => ?_⟩
  simp only [entry, mounted]
  split_ifs with fat disk
  · rfl
  · obtain ⟨listed, content⟩ := keeps fs mounted other protect disk
    simp only [any_some, bind_some, listed, content]
  · rfl

/-- Writing to the RAM filesystem, as both kinds of write do it. -/
theorem keeps_writeRam (unprotected : s.Protects path = false) (now : UInt64) :
    Keeps VfsState.Unharmed (do
      onRamFs (RamFs.writeOrCreate path data now)
      markDirty path) s := by
  refine .bind (keeps_onRamFs (by simp [unprotected]) fun fs _ =>
    RamFs.sameExcept_writeOrCreate fs path data now) fun _ s' _ => ?_
  exact unharmed_of_same rfl rfl rfl rfl rfl

variable {now : UInt64}

theorem keeps_createAndWrite (closed : s.bypassActive = false)
    (respects : s.Respects (.createAndWrite path data now)) :
    Keeps VfsState.Unharmed (createAndWrite path data now) s := by
  by_cases allowed : s.MayWrite path
  · have unprotected : s.Protects path = false := allowed.resolve_left (by simp [closed])
    obtain ⟨fatKeeps, diskKeeps⟩ := respects unprotected
    unfold Keeps
    rw [createAndWrite_of_allowed allowed]
    split_ifs with fat disk
    · exact keeps_onFat32 (fatKeeps fat)
    · exact keeps_onDiskFs (diskKeeps disk)
    · exact keeps_writeRam unprotected now
  · exact .of_unchanged (by rw [createAndWrite_of_refused allowed, finalState_error])

theorem keeps_write (closed : s.bypassActive = false) {fdNum : ℕ}
    (respects : s.Respects (.write fdNum data now)) :
    Keeps VfsState.Unharmed (write fdNum data now) s := by
  cases found : s.descriptor fdNum with
  | none =>
    obtain ⟨e, failed⟩ := getFd_of_none found
    refine .of_unchanged ?_
    unfold write
    rw [get_bind_apply, show s.fdTable.bind (·.fds fdNum) = none from found]
    exact congrArg finalState (bind_of_error failed)
  | some fd =>
    -- with the protection on, a write that passes the check is at an unprotected path
    by_cases allowed : s.MayWrite fd.path
    · have unprotected : s.Protects fd.path = false := allowed.resolve_left (by simp [closed])
      obtain ⟨fatKeeps, diskKeeps⟩ := respects fd found unprotected
      unfold Keeps
      rw [write_of_allowed found allowed]
      split_ifs with device fat disk
      · rw [finalState_writeDevice]
        exact Std.Refl.refl s
      · rw [finalState_map]
        exact keeps_onFat32 (fatKeeps fat (Nat.lt_of_not_le device))
      · rw [finalState_map]
        exact keeps_onDiskFs (diskKeeps disk (Nat.lt_of_not_le fat))
      · rw [finalState_map]
        exact keeps_writeRam unprotected now
    · exact .of_unchanged (by rw [write_of_refused found allowed, finalState_error])

theorem keeps_mkdir (respects : s.Respects (.mkdir path now)) :
    Keeps VfsState.Unharmed (mkdir path now) s := by
  unfold mkdir
  split_ifs with disk
  · exact .of_unchanged rfl
  by_cases hidden : s.Protects path → isFatPath path ∨ isDiskPath path
  · refine keeps_onRamFs hidden fun fs _ => ?_
    rcases fs.mkdir_cases path now with ⟨-, made⟩ | unchanged
    · exact made
    unfold Keeps
    rw [unchanged]
    exact .refl path fs
  · -- a protected directory is there already
    simp only [not_forall, not_or] at hidden
    obtain ⟨protect, fat, disk⟩ := hidden
    refine .of_unchanged (finalState_onRamFs fun fs init => ?_)
    have present := ((respects protect).resolve_left fat).resolve_left disk fs init
    rcases fs.mkdir_cases path now with ⟨vacant, -⟩ | unchanged
    · exact absurd vacant present
    · rw [unchanged, finalState_ok]

theorem keeps_deleteFile (respects : s.Respects (.deleteFile path)) :
    Keeps VfsState.Unharmed (deleteFile path) s := by
  unfold deleteFile
  split_ifs with elsewhere
  · exact .of_unchanged rfl
  simp only [Bool.or_eq_true, not_or] at elsewhere
  obtain ⟨disk, fat⟩ := elsewhere
  by_cases protect : s.Protects path
  · -- what is there is a directory, if anything
    refine .of_unchanged (finalState_onRamFs fun fs init => ?_)
    have kept := ((respects protect).resolve_left fat).resolve_left disk fs
    rcases fs.delete_cases path with ⟨id, inode, found, stored, file, -⟩ | ⟨e, failed⟩
    · exact absurd (kept id inode init found stored) file
    · rw [failed, finalState_error]
  · exact keeps_onRamFs (fun protect' => absurd protect' protect) fun fs _ =>
      fs.sameExcept_delete path

/-- One call that respects the protection leaves the protected paths unharmed. -/
theorem unharmed_step {e : Event} (closed : s.bypassActive = false) (respects : s.Respects e) :
    s.Unharmed (s.step e) := by
  cases e with
  | openFile path => exact keeps_openFile
  | close fdNum => exact keeps_close fdNum
  | read fdNum len => exact keeps_read fdNum len
  | write fdNum data now => exact keeps_write closed respects
  | mkdir path now => exact keeps_mkdir respects
  | stat path => exact keeps_stat
  | createAndWrite path data now => exact keeps_createAndWrite closed respects
  | deleteFile path => exact keeps_deleteFile respects
  | readFileFull path => exact keeps_readFileFull

/-! ## Runs -/

/-- As long as the protection is on and every call respects it, the protected paths are the
same, with the same contents. -/
theorem protected_run {events : List Event} (closed : s.bypassActive = false)
    (run : Run (Guarded VfsState.Respects VfsState.Step) s events t)
    (protect : s.Protects path) : t.entry path = s.entry path := by
  have preserved : ∀ {u e v}, Guarded VfsState.Respects VfsState.Step u e v → s.Unharmed u →
      s.Unharmed v := by
    rintro u e _ ⟨respects, rfl⟩ unharmed
    have closed' : u.bypassActive = false := unharmed.bypass.trans closed
    exact IsTrans.trans _ _ _ unharmed (unharmed_step closed' respects)
  have unharmed : s.Unharmed t := run.invariant preserved (Std.Refl.refl s)
  exact unharmed.entries path protect

def versionPath : FilePath := "/system/version".toList

/-- The bare machine with one protected file. -/
def versionVfs : VfsState noDrivers :=
  let fs := RamFs.new.addInode versionPath fun id => .newFile id (pathFilename versionPath) [1] 0
  { bareVfs with ramFs := some fs }

theorem protected_run_version : ∃ t : VfsState noDrivers,
    Run (Guarded VfsState.Respects VfsState.Step) versionVfs
      [.createAndWrite versionPath [2] 0, .mkdir "/tmp".toList 0] t ∧
    t.entry versionPath = (true, some [1]) := by
  have run : Run (Guarded VfsState.Respects VfsState.Step) versionVfs
      [.createAndWrite versionPath [2] 0, .mkdir "/tmp".toList 0]
      ((versionVfs.step (.createAndWrite versionPath [2] 0)).step (.mkdir "/tmp".toList 0)) :=
    .cons ⟨fun unprotected => absurd unprotected (by decide), rfl⟩ <|
      .cons ⟨fun protect => absurd protect (by decide), rfl⟩ (.nil _)
  exact ⟨_, run, (protected_run rfl run (by decide)).trans (by decide)⟩

/-- Deleting a file asks nobody whether it is protected. -/
theorem not_protected_run :
    ¬ ∀ (D : Drivers) (s t : VfsState D) (events : List Event) (path : FilePath),
      s.bypassActive = false → Run VfsState.Step s events t → s.Protects path →
        t.entry path = s.entry path := by
  intro always
  have kept := always noDrivers versionVfs _ [.deleteFile versionPath] versionPath rfl
    (.cons rfl (.nil _)) (by decide)
  revert kept
  decide

end SmartOs.Vfs
