/-
# The RAM filesystem

Inodes are found by number, and paths lead to numbers through one flat map. A path is a
string that is looked up as it is, without normalisation; the tree exists only in the
child lists of directories.

Inode numbers are handed out in order and no two paths share one. Both facts are part of
the type, since no operation can break them.
-/

import SmartOs.CS.StateError
import SmartOs.SmartPack.Format

namespace SmartOs.Vfs

open SmartOs.CS SmartOs.SmartPack Function

variable {data : List UInt8} {now : UInt64} {id : ℕ}

/-- A path, or a part of one, as its characters. -/
abbrev FilePath := List Char

/-! ## Paths -/

/-- The part after the last slash. -/
def pathFilename (path : FilePath) : FilePath :=
  (path.reverse.takeWhile (· ≠ '/')).reverse

/-- The part before the last slash, if there is one. -/
def beforeLastSlash (path : FilePath) : Option FilePath :=
  match path.reverse.dropWhile (· ≠ '/') with
  | [] => none
  | _ :: front => some front.reverse

def pathParent (path : FilePath) : Option FilePath :=
  if path = ['/'] then none
  else
    let trimmed := (path.reverse.dropWhile (· = '/')).reverse
    match beforeLastSlash trimmed with
    | none => none
    | some [] => some ['/']
    | some front => some front

/-! ## Inodes -/

inductive InodeType where
  | file
  | directory
  | device
  deriving DecidableEq

structure Inode where
  id : ℕ
  name : FilePath
  inodeType : InodeType
  data : List UInt8
  children : List ℕ
  size : UInt64
  createdAt : UInt64
  modifiedAt : UInt64

namespace Inode

def newFile (id : ℕ) (name : FilePath) (data : List UInt8) (now : UInt64) : Inode :=
  ⟨id, name, .file, data, [], UInt64.ofNat data.length, now, now⟩

def newDirectory (id : ℕ) (name : FilePath) (now : UInt64) : Inode :=
  ⟨id, name, .directory, [], [], 0, now, now⟩

/-- The inode after its content is replaced. -/
def withData (inode : Inode) (data : List UInt8) (now : UInt64) : Inode :=
  { inode with data, size := UInt64.ofNat data.length, modifiedAt := now }

/-- The metadata that `stat` reports. -/
def toSmartpack (inode : Inode) : Value :=
  .map [(.string "name", .string (String.ofList inode.name)),
    (.string "type", .string (match inode.inodeType with
      | .file => "file"
      | .directory => "directory"
      | .device => "device")),
    (.string "size", .uint64 inode.size),
    (.string "created", .timestamp inode.createdAt),
    (.string "modified", .timestamp inode.modifiedAt),
    (.string "children", .uint32 (UInt32.ofNat inode.children.length))]

end Inode

/-! ## The filesystem -/

/-- The filesystem, with the counter `NEXT_INODE`. -/
structure RamFs where
  inodes : ℕ → Option Inode
  pathMap : FilePath → Option ℕ
  root : Option ℕ
  nextInode : ℕ
  path_inj : ∀ {p q id}, pathMap p = some id → pathMap q = some id → p = q
  id_lt : ∀ {p id}, pathMap p = some id → id < nextInode

namespace RamFs

def new : RamFs where
  inodes := fun _ => none
  pathMap := fun _ => none
  root := none
  nextInode := 1
  path_inj := nofun
  id_lt := nofun

variable (fs : RamFs) (path : FilePath) (inodeId : ℕ)

/-- Change the child list of the parent directory, if the path has one. -/
def updateParent (f : List ℕ → List ℕ) : ℕ → Option Inode :=
  match (pathParent path).bind fs.pathMap with
  | none => fs.inodes
  | some parentId => update fs.inodes parentId
      ((fs.inodes parentId).map fun parent => { parent with children := f parent.children })

/-- What `mkdir` and `create_file` have in common: a new inode at a new path. -/
def addInode (inode : ℕ → Inode) : RamFs where
  inodes := update (fs.updateParent path (· ++ [fs.nextInode])) fs.nextInode
    (some (inode fs.nextInode))
  pathMap := update fs.pathMap path (some fs.nextInode)
  root := fs.root
  nextInode := fs.nextInode + 1
  path_inj := by
    intro p q id foundP foundQ
    rw [update_apply] at foundP foundQ
    -- a number handed out before is below the counter, so it is not the new one
    split_ifs at foundP foundQ with sameP sameQ sameQ
    · rw [sameP, sameQ]
    · cases foundP
      exact absurd (fs.id_lt foundQ) (Nat.lt_irrefl _)
    · cases foundQ
      exact absurd (fs.id_lt foundP) (Nat.lt_irrefl _)
    · exact fs.path_inj foundP foundQ
  id_lt := by
    intro p id found
    rw [update_apply] at found
    split_ifs at found
    · cases found
      exact Nat.lt_succ_self _
    · exact Nat.lt_succ_of_lt (fs.id_lt found)

/-- Create a directory; one that exists already is fine. -/
def mkdir (now : UInt64) : EStateM String RamFs Unit := do
  let fs ← get
  if (fs.pathMap path).isSome then
    return ()
  else
    let made := fs.addInode path fun id => .newDirectory id (pathFilename path) now
    -- the first directory is the root
    set { made with root := made.root.or (some fs.nextInode) }

def createFile (data : List UInt8) (now : UInt64) : EStateM String RamFs Unit := do
  let fs ← get
  if (fs.pathMap path).isSome then
    throw "File already exists"
  else
    set (fs.addInode path fun id => .newFile id (pathFilename path) data now)

def lookup : Option ℕ := fs.pathMap path

/-- Read at most `len` bytes from an offset on. -/
def read (offset len : ℕ) : Except String (List UInt8) :=
  match fs.inodes inodeId with
  | none => .error "Inode not found"
  | some inode =>
    if inode.inodeType ≠ .file then .error "Not a file"
    else .ok ((inode.data.drop offset).take len)

/-- The filesystem with another inode at a number. -/
def store (inode : Inode) : RamFs :=
  { fs with inodes := update fs.inodes inodeId (some inode) }

/-- Replace the content of a file. -/
def write (data : List UInt8) (now : UInt64) : EStateM String RamFs Unit := do
  let fs ← get
  match fs.inodes inodeId with
  | none => throw "Inode not found"
  | some inode =>
    if inode.inodeType ≠ .file then
      throw "Not a file"
    else
      set (fs.store inodeId (inode.withData data now))

/-- The names in a directory. A child whose inode is gone is left out. -/
def readdir : Except String (List FilePath) :=
  match fs.pathMap path with
  | none => .error "Path not found"
  | some inodeId =>
    match fs.inodes inodeId with
    | none => .error "Inode not found"
    | some inode =>
      if inode.inodeType ≠ .directory then .error "Not a directory"
      else .ok (inode.children.filterMap fun childId => (fs.inodes childId).map Inode.name)

/-- The metadata of the entry at a path. -/
def stat : Except String Value :=
  match fs.pathMap path with
  | none => .error "Path not found"
  | some inodeId =>
    match fs.inodes inodeId with
    | none => .error "Inode not found"
    | some inode => .ok inode.toSmartpack

/-- The filesystem without a path and its inode. -/
def remove : RamFs where
  inodes := update (fs.updateParent path (·.filter (· ≠ inodeId))) inodeId none
  pathMap := update fs.pathMap path none
  root := fs.root
  nextInode := fs.nextInode
  path_inj := by
    intro p q id foundP foundQ
    rw [update_apply] at foundP foundQ
    split_ifs at foundP foundQ
    exact fs.path_inj foundP foundQ
  id_lt := by
    intro p id found
    rw [update_apply] at found
    split_ifs at found
    exact fs.id_lt found

/-- Remove a file. -/
def delete : EStateM String RamFs Unit := do
  let fs ← get
  match fs.pathMap path with
  | none => throw "Path not found"
  | some inodeId =>
    match fs.inodes inodeId with
    | none => throw "Inode not found"
    | some inode =>
      if inode.inodeType = .directory then
        throw "is a directory"
      else
        set (fs.remove path inodeId)

/-- Replace the content of a file, or create it. -/
def writeOrCreate (data : List UInt8) (now : UInt64) : EStateM String RamFs Unit := do
  match (← get).lookup path with
  | some inodeId => write inodeId data now
  | none => createFile path data now

end RamFs

/-! ## What the operations change -/

/-- The bytes of a regular file. -/
def Inode.content (inode : Inode) : Option (List UInt8) :=
  if inode.inodeType = .file then some inode.data else none

namespace RamFs

def content (fs : RamFs) (path : FilePath) : Option (List UInt8) :=
  ((fs.pathMap path).bind fs.inodes).bind Inode.content

theorem read_eq (fs : RamFs) (id offset len : ℕ) : (fs.read id offset len).toOption =
      ((fs.inodes id).bind Inode.content).map fun data => (data.drop offset).take len := by
  unfold read Inode.content
  cases fs.inodes id with
  | none => rfl
  | some inode => by_cases file : inode.inodeType = .file <;> simp [file, Except.toOption]

/-- Paths other than `path` lead to the same inodes with the same content. -/
def SameExcept (path : FilePath) (fs fs' : RamFs) : Prop :=
  ∀ other, other ≠ path →
    fs'.pathMap other = fs.pathMap other ∧ fs'.content other = fs.content other

variable {fs fs' : RamFs} {path : FilePath}

theorem content_updateParent (f : List ℕ → List ℕ) (id : ℕ) :
    (fs.updateParent path f id).bind Inode.content = (fs.inodes id).bind Inode.content := by
  unfold updateParent
  cases (pathParent path).bind fs.pathMap with
  | none => rfl
  | some parentId =>
    by_cases same : id = parentId
    · subst same
      cases inode : fs.inodes id <;> simp [inode, Inode.content]
    · simp [same]

theorem sameExcept_addInode (fs : RamFs) (path : FilePath) (inode : ℕ → Inode) :
    SameExcept path fs (fs.addInode path inode) := by
  intro other ne
  have unchanged : (fs.addInode path inode).pathMap other = fs.pathMap other :=
    update_of_ne ne _ _
  refine ⟨unchanged, ?_⟩
  unfold content
  rw [unchanged]
  cases found : fs.pathMap other with
  | none => rfl
  | some id =>
    -- the path leads to an inode that existed before, so not to the new one
    have old : id ≠ fs.nextInode := (fs.id_lt found).ne
    simpa [addInode, update_of_ne old] using content_updateParent _ id

theorem sameExcept_inode (found : fs.pathMap path = some id)
    (paths : ∀ other, other ≠ path → fs'.pathMap other = fs.pathMap other)
    (inodes : ∀ other, other ≠ id →
      (fs'.inodes other).bind Inode.content = (fs.inodes other).bind Inode.content) :
    SameExcept path fs fs' := by
  intro other ne
  refine ⟨paths other ne, ?_⟩
  unfold content
  rw [paths other ne]
  cases elsewhere : fs.pathMap other with
  | none => rfl
  | some otherId =>
    refine inodes otherId fun same => ne ?_
    subst same
    exact fs.path_inj elsewhere found

theorem SameExcept.refl (path : FilePath) (fs : RamFs) : SameExcept path fs fs :=
  fun _ _ => ⟨rfl, rfl⟩

/-- The inode number that a file has after `writeOrCreate`. -/
def target (fs : RamFs) (path : FilePath) : ℕ := (fs.lookup path).getD fs.nextInode

/-- A write creates the file, replaces the content of the file that is there, or fails and
changes nothing. -/
theorem writeOrCreate_cases (fs : RamFs) (path : FilePath) (data : List UInt8) (now : UInt64) :
    (fs.lookup path = none ∧ writeOrCreate path data now fs =
        .ok () (fs.addInode path fun id => .newFile id (pathFilename path) data now)) ∨
      (∃ id inode, fs.lookup path = some id ∧ fs.inodes id = some inode ∧ inode.inodeType = .file ∧
        writeOrCreate path data now fs = .ok () (fs.store id (inode.withData data now))) ∨
      ∃ e, writeOrCreate path data now fs = .error e fs := by
  cases found : fs.lookup path with
  | none =>
    have vacant : fs.pathMap path = none := found
    exact .inl ⟨rfl, by simp [writeOrCreate, createFile, found, vacant]⟩
  | some id =>
    cases stored : fs.inodes id with
    | none =>
      exact .inr (.inr ⟨"Inode not found", by simp [writeOrCreate, write, found, stored]⟩)
    | some inode =>
      by_cases file : inode.inodeType = .file
      · exact .inr (.inl ⟨id, inode, rfl, stored, file,
          by simp [writeOrCreate, write, found, stored, file]⟩)
      · exact .inr (.inr ⟨"Not a file", by simp [writeOrCreate, write, found, stored, file]⟩)

theorem writeOrCreate_of_file {inode : Inode}
    (found : fs.lookup path = some id) (stored : fs.inodes id = some inode)
    (file : inode.inodeType = .file) :
    writeOrCreate path data now fs = .ok () (fs.store id (inode.withData data now)) := by
  simp [writeOrCreate, write, found, stored, file]

theorem writeOrCreate_eq_ok (ok : writeOrCreate path data now fs = .ok () fs') :
    fs'.lookup path = some (fs.target path) ∧ ∃ inode, fs'.inodes (fs.target path) = some inode ∧
      inode.inodeType = .file ∧ inode.data = data ∧ inode.size = UInt64.ofNat data.length := by
  rcases writeOrCreate_cases fs path data now with
    ⟨vacant, created⟩ | ⟨id, inode, found, -, file, replaced⟩ | ⟨e, failed⟩
  · cases ok.symm.trans created
    have new : fs.target path = fs.nextInode := by simp [target, vacant]
    simp [new, lookup, addInode, Inode.newFile]
  · cases ok.symm.trans replaced
    simpa [target, found, store, Inode.withData] using ⟨found, file⟩
  · cases ok.symm.trans failed

theorem sameExcept_writeOrCreate (fs : RamFs) (path : FilePath) (data : List UInt8) (now : UInt64) :
    Keeps (SameExcept path) (writeOrCreate path data now) fs := by
  unfold Keeps
  rcases writeOrCreate_cases fs path data now with
    ⟨-, created⟩ | ⟨id, inode, found, -, -, replaced⟩ | ⟨e, failed⟩
  · rw [created]
    exact sameExcept_addInode fs path fun id => .newFile id (pathFilename path) data now
  · rw [replaced]
    refine sameExcept_inode found (fun _ _ => rfl) fun other ne => ?_
    simp [store, update_of_ne ne]
  · rw [failed]
    exact .refl path fs

/-- A new directory appears at its path only, and at no path that exists. -/
theorem mkdir_cases (fs : RamFs) (path : FilePath) (now : UInt64) :
    (fs.lookup path = none ∧ Keeps (SameExcept path) (mkdir path now) fs) ∨
      mkdir path now fs = .ok () fs := by
  cases found : fs.lookup path with
  | some id =>
    have exists' : fs.pathMap path = some id := found
    exact .inr (by simp [mkdir, exists'])
  | none =>
    have vacant : fs.pathMap path = none := found
    refine .inl ⟨rfl, ?_⟩
    have made := sameExcept_addInode fs path fun id => .newDirectory id (pathFilename path) now
    simp only [Keeps, mkdir, get_bind_apply, vacant]
    exact made

/-- Deleting removes one path that is not a directory, or changes nothing. -/
theorem delete_cases (fs : RamFs) (path : FilePath) :
    (∃ id inode, fs.lookup path = some id ∧ fs.inodes id = some inode ∧
        inode.inodeType ≠ .directory ∧ delete path fs = .ok () (fs.remove path id)) ∨
      ∃ e, delete path fs = .error e fs := by
  cases found : fs.pathMap path with
  | none => exact .inr ⟨"Path not found", by simp [delete, found]⟩
  | some id =>
    cases stored : fs.inodes id with
    | none => exact .inr ⟨"Inode not found", by simp [delete, found, stored]⟩
    | some inode =>
      by_cases directory : inode.inodeType = .directory
      · exact .inr ⟨"is a directory", by simp [delete, found, stored, directory]⟩
      · exact .inl ⟨id, inode, found, stored, directory, by simp [delete, found, stored, directory]⟩

theorem sameExcept_delete (fs : RamFs) (path : FilePath) :
    Keeps (SameExcept path) (delete path) fs := by
  unfold Keeps
  rcases delete_cases fs path with ⟨id, inode, found, -, -, removed⟩ | ⟨e, failed⟩
  · rw [removed]
    refine sameExcept_inode found (fun other ne => update_of_ne ne _ _) ?_
    intro other ne
    simpa [remove, update_of_ne ne] using content_updateParent _ other
  · rw [failed]
    exact .refl path fs

end RamFs

end SmartOs.Vfs
