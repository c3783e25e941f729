/-
# Directory listings

`readdir` lists the child numbers of a directory; which paths exist is in the flat map. The
two are kept by separate lines of `mkdir`, `create_file` and `delete`, and nothing asks for the
parent of a new path: if it is missing, or a file, the path is added all the same and is in no
listing, not even after the parent is created.

Calls that only add paths below existing directories keep the listings exact, and they are the
only ones that do.
-/

import SmartOs.CS.Extents
import SmartOs.Vfs.RamFs

namespace SmartOs.Vfs

open SmartOs.CS List Function Option

variable {f : List ℕ → List ℕ} {fs : RamFs} {inode : ℕ → Inode} {ids : List ℕ} {removed id : ℕ}

/-! ## Normalised paths -/

/-- A component of a path. -/
structure IsName (name : FilePath) : Prop where
  nonempty : name ≠ []
  no_slash : '/' ∉ name

def childPath (directory name : FilePath) : FilePath :=
  if directory = ['/'] then '/' :: name else directory ++ '/' :: name

/-- Absolute paths with single slashes, and none at the end but for the root. -/
inductive Normalised : FilePath → Prop where
  | root : Normalised ['/']
  | child {directory name path : FilePath} (parent : Normalised directory) (last : IsName name)
      (eq : path = childPath directory name) : Normalised path

/-- `directory` is the parent of the path, and `name` its last component. -/
structure ChildOf (directory name path : FilePath) : Prop where
  parent : Normalised directory
  last : IsName name
  eq : path = childPath directory name

theorem Normalised.ne_nil {path : FilePath} (normalised : Normalised path) : path ≠ [] := by
  cases normalised with
  | root => exact cons_ne_nil _ _
  | child parent last eq =>
    subst eq
    unfold childPath
    split_ifs <;> simp

/-! ## The last slash of a path -/

section Split

variable {front name : FilePath} (last : IsName name)

theorem reverse_append_slash :
    (front ++ '/' :: name).reverse = name.reverse ++ '/' :: front.reverse := by
  simp

include last

theorem IsName.all_ne : ∀ c ∈ name.reverse, decide (c ≠ '/') := by
  intro c mem
  rw [decide_eq_true_eq]
  rintro rfl
  exact last.no_slash (mem_reverse.mp mem)

theorem pathFilename_append : pathFilename (front ++ '/' :: name) = name := by
  rw [pathFilename, reverse_append_slash, takeWhile_append_of_pos last.all_ne,
    takeWhile_cons_of_neg (by simp), append_nil, reverse_reverse]

theorem beforeLastSlash_append : beforeLastSlash (front ++ '/' :: name) = some front := by
  rw [beforeLastSlash, reverse_append_slash, dropWhile_append_of_pos last.all_ne]
  simp

theorem trimmed_append :
    ((front ++ '/' :: name).reverse.dropWhile (· = '/')).reverse = front ++ '/' :: name := by
  have last_ne := last.all_ne
  rw [reverse_append_slash]
  cases shape : name.reverse with
  | nil => exact absurd (reverse_eq_nil_iff.mp shape) last.nonempty
  | cons c rest =>
    rw [shape] at last_ne
    have ordinary : c ≠ '/' := of_decide_eq_true (last_ne c mem_cons_self)
    rw [cons_append, dropWhile_cons_of_neg (by simpa using ordinary), ← cons_append,
      ← shape, ← reverse_append_slash, reverse_reverse]

theorem pathParent_append : pathParent (front ++ '/' :: name) =
    some (if front = [] then ['/'] else front) := by
  have other : front ++ '/' :: name ≠ ['/'] := by
    intro same
    have length := congrArg length same
    have := length_pos_iff.mpr last.nonempty
    simp only [length_append, length_cons, length_nil] at length
    omega
  rw [pathParent, if_neg other]
  dsimp only
  rw [trimmed_append last, beforeLastSlash_append last]
  cases front <;> rfl

end Split

namespace ChildOf

variable {directory name path : FilePath} (child : ChildOf directory name path)

include child

theorem exists_front : ∃ front, path = front ++ '/' :: name ∧
    (if front = [] then ['/'] else front) = directory := by
  obtain ⟨parent, -, rfl⟩ := child
  unfold childPath
  split_ifs with root
  · exact ⟨[], rfl, root.symm⟩
  · exact ⟨directory, rfl, if_neg parent.ne_nil⟩

theorem pathFilename_eq : pathFilename path = name := by
  obtain ⟨front, rfl, -⟩ := child.exists_front
  exact pathFilename_append child.last

theorem pathParent_eq : pathParent path = some directory := by
  obtain ⟨front, rfl, rfl⟩ := child.exists_front
  exact pathParent_append child.last

theorem normalised : Normalised path := .child child.parent child.last child.eq

theorem ne : path ≠ directory := by
  obtain ⟨front, rfl, rfl⟩ := child.exists_front
  intro same
  have length := congrArg length same
  have := length_pos_iff.mpr child.last.nonempty
  split_ifs at length <;>
    simp only [length_append, length_cons, length_nil] at length <;> omega

end ChildOf

theorem Normalised.childOf {path directory : FilePath} (normalised : Normalised path)
    (parent : pathParent path = some directory) : ChildOf directory (pathFilename path) path := by
  cases normalised with
  | root => cases parent
  | @child d name _ normal last eq =>
    have child : ChildOf d name path := ⟨normal, last, eq⟩
    cases child.pathParent_eq.symm.trans parent
    rwa [child.pathFilename_eq]

/-! ## Inodes by path -/

namespace RamFs

def inodeAt (fs : RamFs) (path : FilePath) : Option Inode := (fs.pathMap path).bind fs.inodes

def Exists (fs : RamFs) (path : FilePath) : Prop := (fs.pathMap path).isSome

def IsDirectory (fs : RamFs) (path : FilePath) : Prop :=
  ∃ inode, fs.inodeAt path = some inode ∧ inode.inodeType = .directory

variable {id : ℕ} {other : FilePath} {inode : ℕ → Inode}

variable {path : FilePath}

theorem inodeAt_of_pathMap (found : fs.pathMap path = some id) :
    fs.inodeAt path = fs.inodes id := by
  rw [inodeAt, found, bind_some]

theorem IsDirectory.exists (directory : fs.IsDirectory path) : ∃ id, fs.pathMap path = some id := by
  obtain ⟨inode, found, -⟩ := directory
  obtain ⟨id, mapped, -⟩ := bind_eq_some_iff.mp found
  exact ⟨id, mapped⟩

/-- The inode at `other` after the child list of the parent of `path` is changed. -/
def relinked (path other : FilePath) (f : List ℕ → List ℕ) (inode : Inode) : Inode :=
  if pathParent path = some other then { inode with children := f inode.children } else inode

@[simp] theorem relinked_name (f : List ℕ → List ℕ) (inode : Inode) :
    (relinked path other f inode).name = inode.name := by
  unfold relinked
  split_ifs <;> rfl

@[simp] theorem relinked_inodeType (f : List ℕ → List ℕ) (inode : Inode) :
    (relinked path other f inode).inodeType = inode.inodeType := by
  unfold relinked
  split_ifs <;> rfl

theorem relinked_children (f : List ℕ → List ℕ) (inode : Inode) :
    (relinked path other f inode).children =
      if pathParent path = some other then f inode.children else inode.children := by
  unfold relinked
  split_ifs <;> rfl

/-- The parent of a path gets another child list; all other inodes are as before. -/
theorem updateParent_of_pathMap (found : fs.pathMap other = some id)
    (f : List ℕ → List ℕ) :
    fs.updateParent path f id = (fs.inodes id).map (relinked path other f) := by
  have kept (apart : pathParent path ≠ some other) :
      (fs.inodes id).map (relinked path other f) = fs.inodes id := by
    refine (congrArg (Option.map · _) ?_).trans map_id'
    funext inode
    exact if_neg apart
  unfold updateParent
  cases mapped : (pathParent path).bind fs.pathMap with
  | none =>
    have apart : pathParent path ≠ some other := by
      intro parent
      rw [parent, bind_some, found] at mapped
      cases mapped
    rw [kept apart]
  | some parentId =>
    obtain ⟨d, parent, foundD⟩ := bind_eq_some_iff.mp mapped
    by_cases same : d = other
    · subst same
      cases found.symm.trans foundD
      refine (update_self ..).trans (congrArg (Option.map · _) ?_)
      funext inode
      exact (if_pos parent).symm
    · have apart : parentId ≠ id := by
        rintro rfl
        exact same (fs.path_inj foundD found)
      have elsewhere : pathParent path ≠ some other := by
        rw [parent]
        exact fun equal => same (some.inj equal)
      rw [kept elsewhere]
      exact update_of_ne apart.symm _ _

theorem inodeAt_addInode_self (fs : RamFs) :
    (fs.addInode path inode).inodeAt path = some (inode fs.nextInode) := by
  simp [inodeAt, addInode]

theorem pathMap_addInode_of_ne (fs : RamFs) (inode : ℕ → Inode)
    (ne : other ≠ path) : (fs.addInode path inode).pathMap other = fs.pathMap other :=
  update_of_ne ne _ _

theorem inodeAt_addInode_of_ne (fs : RamFs) (ne : other ≠ path) :
    (fs.addInode path inode).inodeAt other =
      (fs.inodeAt other).map (relinked path other (· ++ [fs.nextInode])) := by
  have unchanged := fs.pathMap_addInode_of_ne inode ne
  cases found : fs.pathMap other with
  | none => simp [inodeAt, unchanged, found]
  | some id =>
    rw [inodeAt_of_pathMap (unchanged.trans found), inodeAt_of_pathMap found]
    -- the number was handed out before, so it is not the new one
    refine (update_of_ne (fs.id_lt found).ne _ _).trans ?_
    exact updateParent_of_pathMap found _

theorem pathMap_remove_of_ne (fs : RamFs) (id : ℕ) (ne : other ≠ path) :
    (fs.remove path id).pathMap other = fs.pathMap other :=
  update_of_ne ne _ _

theorem inodeAt_remove_of_ne (mapped : fs.pathMap path = some id) (ne : other ≠ path) :
    (fs.remove path id).inodeAt other =
      (fs.inodeAt other).map (relinked path other (·.filter (· ≠ id))) := by
  have unchanged := fs.pathMap_remove_of_ne id ne
  cases found : fs.pathMap other with
  | none => simp [inodeAt, unchanged, found]
  | some otherId =>
    have apart : otherId ≠ id := by
      rintro rfl
      exact ne (fs.path_inj found mapped)
    rw [inodeAt_of_pathMap (unchanged.trans found), inodeAt_of_pathMap found]
    refine (update_of_ne apart _ _).trans ?_
    exact updateParent_of_pathMap found _

/-! ## Exact listings -/

/-- Every listing names the children of its directory, each once, and every path but the root is
in a directory. -/
structure Exact (fs : RamFs) : Prop where
  listing : ∀ directory, fs.IsDirectory directory → ∃ names, fs.readdir directory = .ok names ∧
    names.Nodup ∧ ∀ name, name ∈ names ↔ ∃ path, fs.Exists path ∧ ChildOf directory name path
  parent : ∀ path, fs.Exists path → path ≠ ['/'] →
    ∃ directory name, ChildOf directory name path ∧ fs.IsDirectory directory

/-- The child lists and the map describe one tree. -/
structure Tree (fs : RamFs) : Prop where
  normalised : ∀ ⦃path id⦄, fs.pathMap path = some id → Normalised path
  inode : ∀ ⦃path id⦄, fs.pathMap path = some id →
    ∃ inode, fs.inodeAt path = some inode ∧ inode.name = pathFilename path
  parent : ∀ ⦃path id⦄, fs.pathMap path = some id → path ≠ ['/'] →
    ∃ directory, pathParent path = some directory ∧ fs.IsDirectory directory
  root : fs.IsDirectory ['/']
  children : ∀ ⦃directory inode⦄, fs.inodeAt directory = some inode →
    inode.inodeType = .directory → inode.children.Nodup ∧
      ∀ id, id ∈ inode.children ↔
        ∃ path, fs.pathMap path = some id ∧ pathParent path = some directory

variable {fs : RamFs}

variable {directory name : FilePath}

/-- The numbers in a child list stand for paths in the directory, and their inodes carry the last
components of these paths. -/
theorem Tree.child (tree : fs.Tree) {inode : Inode} (at_d : fs.inodeAt directory = some inode)
    (isDir : inode.inodeType = .directory) :
    id ∈ inode.children ∧ (fs.inodes id).map Inode.name = some name ↔
      ∃ path, fs.pathMap path = some id ∧ ChildOf directory name path := by
  rw [(tree.children at_d isDir).2 id]
  constructor
  · rintro ⟨⟨path, mapped, parent⟩, named⟩
    obtain ⟨child, stored, filename⟩ := tree.inode mapped
    rw [← inodeAt_of_pathMap mapped, stored, map_some, some.injEq, filename] at named
    exact ⟨path, mapped, named ▸ (tree.normalised mapped).childOf parent⟩
  · rintro ⟨path, mapped, child⟩
    obtain ⟨inode, stored, filename⟩ := tree.inode mapped
    refine ⟨⟨path, mapped, child.pathParent_eq⟩, ?_⟩
    rw [← inodeAt_of_pathMap mapped, stored, map_some, filename, child.pathFilename_eq]

theorem Tree.exact (tree : fs.Tree) : fs.Exact := by
  refine ⟨fun d directory => ?_, fun path found other => ?_⟩
  · obtain ⟨inode, at_d, isDir⟩ := directory
    obtain ⟨id, mapped, stored⟩ := bind_eq_some_iff.mp at_d
    have listed : fs.readdir d = .ok (inode.children.filterMap fun childId =>
        (fs.inodes childId).map Inode.name) := by
      simp [readdir, mapped, stored, isDir]
    refine ⟨_, listed, ?_, fun name => ?_⟩
    · refine pairwise_filterMap.mpr ?_
      refine (tree.children at_d isDir).1.imp_of_mem fun {a b} memA memB ne name named => ?_
      rintro _ named' rfl
      -- two children with one name are at one path
      obtain ⟨p, foundP, childP⟩ := (tree.child at_d isDir).mp ⟨memA, named⟩
      obtain ⟨q, foundQ, childQ⟩ := (tree.child at_d isDir).mp ⟨memB, named'⟩
      rw [childP.eq] at foundP
      rw [childQ.eq, foundP] at foundQ
      exact ne (some.inj foundQ)
    · rw [mem_filterMap]
      simp only [Exists, isSome_iff_exists]
      constructor
      · rintro ⟨child, mem, named⟩
        obtain ⟨path, found, childOf⟩ := (tree.child at_d isDir).mp ⟨mem, named⟩
        exact ⟨path, ⟨child, found⟩, childOf⟩
      · rintro ⟨path, ⟨child, found⟩, childOf⟩
        exact ⟨child, (tree.child at_d isDir).mpr ⟨path, found, childOf⟩⟩
  · obtain ⟨id, mapped⟩ := isSome_iff_exists.mp found
    obtain ⟨d, parent, directory⟩ := tree.parent mapped other
    exact ⟨d, _, (tree.normalised mapped).childOf parent, directory⟩

theorem Tree.ne_of_vacant (vacant : fs.pathMap path = none)
    (exists_directory : fs.IsDirectory directory) : directory ≠ path := by
  rintro rfl
  obtain ⟨id, mapped⟩ := exists_directory.exists
  rw [vacant] at mapped
  cases mapped

theorem Tree.isDirectory_of_pathParent (tree : fs.Tree) (mapped : fs.pathMap path = some id)
    (parent : pathParent path = some directory) : fs.IsDirectory directory := by
  have other : path ≠ ['/'] := by
    rintro rfl
    cases parent
  obtain ⟨d, parent', isDir⟩ := tree.parent mapped other
  cases parent.symm.trans parent'
  exact isDir

/-! ## What the calls do to the tree -/

theorem pathMap_addInode_eq_some_iff : (fs.addInode path inode).pathMap other = some id ↔
      other = path ∧ some fs.nextInode = some id ∨ other ≠ path ∧ fs.pathMap other = some id :=
  update_eq_some_iff

/-- The numbers stand for paths in the directory at a path, each once. -/
structure Links (fs : RamFs) (path : FilePath) (ids : List ℕ) : Prop where
  nodup : ids.Nodup
  below : ∀ id ∈ ids, ∃ child, fs.pathMap child = some id ∧ pathParent child = some path

theorem pathMap_addInode_of_vacant (vacant : fs.pathMap path = none)
    (mapped : fs.pathMap other = some id) : (fs.addInode path inode).pathMap other = some id := by
  refine pathMap_addInode_eq_some_iff.mpr (.inr ⟨?_, mapped⟩)
  rintro rfl
  rw [vacant] at mapped
  cases mapped

/-- A new path is in the list of its parent, under a number that no list has. -/
theorem Links.addInode (links : fs.Links other ids)
    (vacant : fs.pathMap path = none) : (fs.addInode path inode).Links other
      (if pathParent path = some other then ids ++ [fs.nextInode] else ids) := by
  have before (i : ℕ) (mem : i ∈ ids) : ∃ child,
      (fs.addInode path inode).pathMap child = some i ∧ pathParent child = some other :=
    (links.below i mem).imp fun _ found => found.imp_left (pathMap_addInode_of_vacant vacant)
  split_ifs with parent
  · refine ⟨links.nodup.append (nodup_singleton _) (disjoint_singleton.mpr fun mem => ?_),
      fun i mem => ?_⟩
    · obtain ⟨child, mapped, -⟩ := links.below _ mem
      exact (fs.id_lt mapped).false
    · rcases mem_append.mp mem with mem | mem
      · exact before i mem
      · exact ⟨path, mem_singleton.mp mem ▸ update_self .., parent⟩
  · exact ⟨links.nodup, before⟩

theorem isDirectory_addInode_of_ne (ne : other ≠ path) :
    (fs.addInode path inode).IsDirectory other ↔ fs.IsDirectory other := by
  unfold IsDirectory
  rw [fs.inodeAt_addInode_of_ne ne]
  simp

theorem Tree.addInode (tree : fs.Tree)
    (vacant : fs.pathMap path = none) (child : ChildOf directory name path)
    (isDirectory : fs.IsDirectory directory) (named : ∀ id, (inode id).name = pathFilename path)
    (empty : ∀ id, (inode id).children = []) : (fs.addInode path inode).Tree := by
  have keeps {d : FilePath} (old : fs.IsDirectory d) : (fs.addInode path inode).IsDirectory d :=
    (isDirectory_addInode_of_ne (Tree.ne_of_vacant vacant old)).mpr old
  refine ⟨fun p id mapped => ?_, fun p id mapped => ?_, fun p id mapped other => ?_,
    keeps tree.root, fun d inode' at_d isDir => ?_⟩
  · rcases pathMap_addInode_eq_some_iff.mp mapped with ⟨rfl, -⟩ | ⟨-, old⟩
    · exact child.normalised
    · exact tree.normalised old
  · rcases pathMap_addInode_eq_some_iff.mp mapped with ⟨rfl, -⟩ | ⟨ne, old⟩
    · exact ⟨_, fs.inodeAt_addInode_self, named _⟩
    obtain ⟨oldInode, found, filename⟩ := tree.inode old
    refine ⟨_, (fs.inodeAt_addInode_of_ne ne).trans (by rw [found, map_some]), ?_⟩
    rw [relinked_name, filename]
  · rcases pathMap_addInode_eq_some_iff.mp mapped with ⟨rfl, -⟩ | ⟨-, old⟩
    · exact ⟨directory, child.pathParent_eq, keeps isDirectory⟩
    · obtain ⟨d, parent, old⟩ := tree.parent old other
      exact ⟨d, parent, keeps old⟩
  · by_cases new : d = path
    · -- no path is below the new one
      subst new
      cases at_d.symm.trans (fs.inodeAt_addInode_self)
      refine ⟨empty _ ▸ nodup_nil, fun id => ?_⟩
      rw [empty]
      refine iff_of_false not_mem_nil ?_
      rintro ⟨p, mapped, parent⟩
      refine Tree.ne_of_vacant vacant ?_ rfl
      rcases pathMap_addInode_eq_some_iff.mp mapped with ⟨rfl, -⟩ | ⟨-, old⟩
      · cases child.pathParent_eq.symm.trans parent
        exact isDirectory
      · exact tree.isDirectory_of_pathParent old parent
    · rw [fs.inodeAt_addInode_of_ne new, map_eq_some_iff] at at_d
      obtain ⟨oldInode, old, rfl⟩ := at_d
      rw [relinked_inodeType] at isDir
      obtain ⟨nodup, mem⟩ := tree.children old isDir
      rw [relinked_children]
      obtain ⟨nodup, links⟩ := Links.addInode ⟨nodup, fun id => (mem id).mp⟩ vacant
      refine ⟨nodup, fun id => ⟨links id, ?_⟩⟩
      rintro ⟨p, mapped, parent⟩
      rcases pathMap_addInode_eq_some_iff.mp mapped with ⟨rfl, same⟩ | ⟨-, old⟩
      · rw [if_pos parent, some.inj same]
        exact mem_append_right _ mem_cons_self
      have member := (mem id).mpr ⟨p, old, parent⟩
      split_ifs
      · exact mem_append_left _ member
      · exact member

theorem pathMap_remove_eq_some_iff : (fs.remove path removed).pathMap other = some id ↔
      other ≠ path ∧ fs.pathMap other = some id :=
  update_eq_some_iff.trans (or_iff_right (by simp))

theorem pathMap_remove_of_ne_id
    (mapped : fs.pathMap path = some removed) (found : fs.pathMap other = some id)
    (ne : id ≠ removed) : (fs.remove path removed).pathMap other = some id := by
  refine pathMap_remove_eq_some_iff.mpr ⟨?_, found⟩
  rintro rfl
  exact ne (some.inj (found.symm.trans mapped))

/-- The path that is removed is in no list: its parent has lost it. -/
theorem Links.remove (links : fs.Links other ids)
    (mapped : fs.pathMap path = some id) : (fs.remove path id).Links other
      (if pathParent path = some other then ids.filter (· ≠ id) else ids) := by
  have after (i : ℕ) (mem : i ∈ ids) (ne : pathParent path = some other → i ≠ id) :
      ∃ child, (fs.remove path id).pathMap child = some i ∧ pathParent child = some other := by
    obtain ⟨child, found, parent⟩ := links.below i mem
    refine ⟨child, pathMap_remove_of_ne_id mapped found ?_, parent⟩
    rintro rfl
    exact ne (fs.path_inj found mapped ▸ parent) rfl
  split_ifs with parent
  · refine ⟨links.nodup.filter _, fun i mem => ?_⟩
    obtain ⟨mem, ne⟩ := mem_filter.mp mem
    exact after i mem fun _ => of_decide_eq_true ne
  · exact ⟨links.nodup, fun i mem => after i mem fun same => absurd same parent⟩

/-- Removing a file. It is the parent of no path, since it is not a directory. -/
theorem Tree.remove (tree : fs.Tree) {file : Inode}
    (mapped : fs.pathMap path = some id) (stored : fs.inodes id = some file)
    (isFile : file.inodeType ≠ .directory) : (fs.remove path id).Tree := by
  have notDirectory {d : FilePath} (old : fs.IsDirectory d) : d ≠ path := by
    rintro rfl
    obtain ⟨inode, found, isDirectory⟩ := old
    rw [inodeAt_of_pathMap mapped, stored] at found
    cases found
    exact isFile isDirectory
  have keeps {d : FilePath} (old : fs.IsDirectory d) : (fs.remove path id).IsDirectory d := by
    unfold IsDirectory
    rw [inodeAt_remove_of_ne mapped (notDirectory old)]
    simpa [IsDirectory] using old
  refine ⟨fun p i found => ?_, fun p i found => ?_, fun p i found other => ?_, keeps tree.root,
    fun d inode' at_d isDir => ?_⟩
  · exact tree.normalised (pathMap_remove_eq_some_iff.mp found).2
  · obtain ⟨ne, old⟩ := pathMap_remove_eq_some_iff.mp found
    obtain ⟨inode, at_p, filename⟩ := tree.inode old
    refine ⟨_, (inodeAt_remove_of_ne mapped ne).trans (by rw [at_p, map_some]), ?_⟩
    rw [relinked_name, filename]
  · obtain ⟨-, old⟩ := pathMap_remove_eq_some_iff.mp found
    obtain ⟨d, parent, isDirectory⟩ := tree.parent old other
    exact ⟨d, parent, keeps isDirectory⟩
  have ne : d ≠ path := by
    rintro rfl
    simp [inodeAt, RamFs.remove] at at_d
  rw [inodeAt_remove_of_ne mapped ne, map_eq_some_iff] at at_d
  obtain ⟨oldInode, old, rfl⟩ := at_d
  rw [relinked_inodeType] at isDir
  obtain ⟨nodup, mem⟩ := tree.children old isDir
  rw [relinked_children]
  obtain ⟨nodup, links⟩ := Links.remove ⟨nodup, fun i => (mem i).mp⟩ mapped
  refine ⟨nodup, fun i => ⟨links i, ?_⟩⟩
  rintro ⟨p, found, parent⟩
  obtain ⟨ne, old⟩ := pathMap_remove_eq_some_iff.mp found
  have member := (mem i).mpr ⟨p, old, parent⟩
  split_ifs
  · refine mem_filter.mpr ⟨member, decide_eq_true ?_⟩
    rintro rfl
    exact ne (fs.path_inj old mapped)
  · exact member

theorem Tree.store (tree : fs.Tree) {inode : Inode} (stored : fs.inodes id = some inode)
    (data : List UInt8) (now : UInt64) : (fs.store id (inode.withData data now)).Tree := by
  -- an inode before is one after, with the same name, kind and children
  have forward {p : FilePath} {old : Inode} (found : fs.inodeAt p = some old) :
      ∃ new, (fs.store id (inode.withData data now)).inodeAt p = some new ∧ new.name = old.name ∧
        new.inodeType = old.inodeType ∧ new.children = old.children := by
    obtain ⟨i, mapped, found⟩ := bind_eq_some_iff.mp found
    rw [inodeAt_of_pathMap (show (fs.store id _).pathMap p = some i from mapped)]
    by_cases same : i = id
    · subst same
      cases found.symm.trans stored
      exact ⟨_, update_self .., rfl, rfl, rfl⟩
    · exact ⟨old, (update_of_ne same _ _).trans found, rfl, rfl, rfl⟩
  have keeps {d : FilePath} (old : fs.IsDirectory d) :
      (fs.store id (inode.withData data now)).IsDirectory d := by
    obtain ⟨oldInode, found, isDirectory⟩ := old
    obtain ⟨new, found', -, kind, -⟩ := forward found
    exact ⟨new, found', kind.trans isDirectory⟩
  refine ⟨tree.normalised, fun p i mapped => ?_, fun p i mapped other => ?_, keeps tree.root,
    fun d new at_d isDir => ?_⟩
  · obtain ⟨old, found, filename⟩ := tree.inode mapped
    obtain ⟨new, found', name, -⟩ := forward found
    exact ⟨new, found', name.trans filename⟩
  · obtain ⟨d, parent, isDirectory⟩ := tree.parent mapped other
    exact ⟨d, parent, keeps isDirectory⟩
  obtain ⟨i, mapped, -⟩ := bind_eq_some_iff.mp at_d
  obtain ⟨old, found, -⟩ := tree.inode (show fs.pathMap d = some i from mapped)
  obtain ⟨_, found', -, kind, children⟩ := forward found
  cases at_d.symm.trans found'
  rw [children]
  exact tree.children found (kind.symm.trans isDir)

end RamFs

/-! ## Runs -/

inductive RamFsCall where
  | mkdir (path : FilePath) (now : UInt64)
  | createFile (path : FilePath) (data : List UInt8) (now : UInt64)
  | write (inodeId : ℕ) (data : List UInt8) (now : UInt64)
  | delete (path : FilePath)

namespace RamFsCall

/-- The path of the call, if it has one, is normalised. -/
def Normal : RamFsCall → Prop
  | mkdir path _ | createFile path _ _ | delete path => Normalised path
  | write _ _ _ => True

def execute : RamFsCall → EStateM String RamFs Unit
  | mkdir path now => RamFs.mkdir path now
  | createFile path data now => RamFs.createFile path data now
  | write inodeId data now => RamFs.write inodeId data now
  | delete path => RamFs.delete path

/-- The path that the call adds if it does not exist. -/
def newPath : RamFsCall → Option FilePath
  | mkdir path _ | createFile path _ _ => some path
  | write _ _ _ | delete _ => none

/-- A path that the call adds is in a directory that exists. -/
def Rooted (fs : RamFs) (call : RamFsCall) : Prop :=
  ∀ path, call.newPath = some path → fs.pathMap path = none →
    ∃ directory name, ChildOf directory name path ∧ fs.IsDirectory directory

end RamFsCall

namespace RamFs

variable {fs : RamFs}

def step (fs : RamFs) (call : RamFsCall) : RamFs := finalState (call.execute fs)

def run (fs : RamFs) (calls : List RamFsCall) : RamFs := calls.foldl step fs

/-- A filesystem with a root directory and nothing else. -/
structure OnlyRoot (fs : RamFs) : Prop where
  paths : ∀ path, fs.Exists path → path = ['/']
  root : ∃ inode, fs.inodeAt ['/'] = some inode ∧ inode.inodeType = .directory ∧
    inode.name = [] ∧ inode.children = []

theorem OnlyRoot.tree (only : fs.OnlyRoot) : fs.Tree := by
  obtain ⟨inode, found, isDirectory, name, children⟩ := only.root
  have isRoot {p : FilePath} {id : ℕ} (mapped : fs.pathMap p = some id) : p = ['/'] :=
    only.paths p (by rw [Exists, mapped]; rfl)
  refine ⟨fun p id mapped => ?_, fun p id mapped => ?_, fun p id mapped other => ?_,
    ⟨inode, found, isDirectory⟩, fun d inode' at_d isDir => ?_⟩
  · rw [isRoot mapped]
    exact .root
  · rw [isRoot mapped]
    exact ⟨inode, found, name⟩
  · exact absurd (isRoot mapped) other
  obtain ⟨id, mapped, -⟩ := bind_eq_some_iff.mp at_d
  cases isRoot mapped
  cases found.symm.trans at_d
  rw [children]
  refine ⟨nodup_nil, fun id => iff_of_false not_mem_nil ?_⟩
  rintro ⟨p, mapped, parent⟩
  rw [isRoot mapped] at parent
  cases parent

/-- What a call does: it adds an inode at a new path, removes a file, changes the contents of a
file, or does nothing. -/
theorem step_cases (call : RamFsCall) :
    (∃ path inode root, call.newPath = some path ∧ fs.pathMap path = none ∧
        (∀ id, (inode id).name = pathFilename path ∧ (inode id).children = [] ∧
          ((inode id).inodeType = .file → (inode id).size = .ofNat (inode id).data.length)) ∧
        fs.step call = { fs.addInode path inode with root }) ∨
      call.Rooted fs ∧ ((∃ path id file, fs.pathMap path = some id ∧ fs.inodes id = some file ∧
            file.inodeType ≠ .directory ∧ fs.step call = fs.remove path id) ∨
          (∃ id inode data now, fs.inodes id = some inode ∧
            fs.step call = fs.store id (inode.withData data now)) ∨ fs.step call = fs) := by
  have present {path : FilePath} {id : ℕ} (found : fs.pathMap path = some id)
      (new : call.newPath = some path) : call.Rooted fs := by
    intro other same vacant
    cases same.symm.trans new
    rw [found] at vacant
    cases vacant
  cases call with
  | mkdir path now =>
    cases found : fs.pathMap path with
    | none =>
      refine .inl ⟨path, fun id => .newDirectory id (pathFilename path) now,
        fs.root.or (some fs.nextInode), rfl, found,
        fun id => ⟨rfl, rfl, InodeType.noConfusion⟩, ?_⟩
      simp only [step, RamFsCall.execute, mkdir, get_bind_apply, found]
      rfl
    | some id =>
      refine .inr ⟨present found rfl, .inr (.inr ?_)⟩
      simp [step, RamFsCall.execute, mkdir, found]
  | createFile path data now =>
    cases found : fs.pathMap path with
    | none =>
      refine .inl ⟨path, fun id => .newFile id (pathFilename path) data now, fs.root, rfl, found,
        fun id => ⟨rfl, rfl, fun _ => rfl⟩, ?_⟩
      simp only [step, RamFsCall.execute, createFile, get_bind_apply, found]
      rfl
    | some id =>
      refine .inr ⟨present found rfl, .inr (.inr ?_)⟩
      simp [step, RamFsCall.execute, createFile, found]
  | write id data now =>
    refine .inr ⟨by rintro _ ⟨⟩, .inr ?_⟩
    cases found : fs.inodes id with
    | none => exact .inr (by simp [step, RamFsCall.execute, write, found])
    | some inode =>
      by_cases file : inode.inodeType = .file
      · exact .inl ⟨id, inode, data, now, found,
          by simp [step, RamFsCall.execute, write, found, file]⟩
      · exact .inr (by simp [step, RamFsCall.execute, write, found, file])
  | delete path =>
    refine .inr ⟨by rintro _ ⟨⟩, ?_⟩
    rcases delete_cases fs path with ⟨id, inode, found, stored, file, removed⟩ | ⟨e, failed⟩
    · exact .inl ⟨path, id, inode, found, stored, file,
        by rw [step, RamFsCall.execute, removed, finalState_ok]⟩
    · exact .inr (.inr (by rw [step, RamFsCall.execute, failed, finalState_error]))

variable {path : FilePath}

/-- A path that is added stays without a parent if it has none. -/
theorem rooted_of_exact (tree : fs.Tree) (vacant : fs.pathMap path = none)
    (exact_after : (fs.addInode path inode).Exact) :
    ∃ directory name, ChildOf directory name path ∧ fs.IsDirectory directory := by
  have other : path ≠ ['/'] := (Tree.ne_of_vacant vacant tree.root).symm
  have added : (fs.addInode path inode).Exists path := by simp [Exists, addInode]
  obtain ⟨d, name, child, isDir⟩ := exact_after.parent path added other
  refine ⟨d, name, child, (isDirectory_addInode_of_ne ?_).mp isDir⟩
  rintro rfl
  exact child.ne rfl

/-- One call keeps the tree if what it adds is in a directory, and only then the listings are still
exact. -/
theorem Tree.step_iff (tree : fs.Tree) (call : RamFsCall) :
    ((fs.step call).Tree ↔ call.Rooted fs) ∧ ((fs.step call).Exact ↔ call.Rooted fs) := by
  have both (made : call.Rooted fs → (fs.step call).Tree)
      (needed : (fs.step call).Exact → call.Rooted fs) :
      ((fs.step call).Tree ↔ call.Rooted fs) ∧ ((fs.step call).Exact ↔ call.Rooted fs) :=
    ⟨⟨fun after => needed after.exact, made⟩, needed, fun rooted => (made rooted).exact⟩
  rcases fs.step_cases call with ⟨path, inode, root, new, vacant, fresh, result⟩ | ⟨rooted, rest⟩
  · rw [result] at both ⊢
    refine both (fun rooted => ?_) fun after other same _ => ?_
    · obtain ⟨d, name, child, isDir⟩ := rooted path new vacant
      have made := tree.addInode vacant child isDir (fun id => (fresh id).1)
        fun id => (fresh id).2.1
      exact ⟨made.normalised, made.inode, made.parent, made.root, made.children⟩
    · cases same.symm.trans new
      exact rooted_of_exact tree vacant ⟨after.listing, after.parent⟩
  · refine both (fun _ => ?_) fun _ => rooted
    rcases rest with ⟨path, id, file, mapped, stored, isFile, result⟩ |
      ⟨id, inode, data, now, stored, result⟩ | result
    · rw [result]
      exact tree.remove mapped stored isFile
    · rw [result]
      exact tree.store stored data now
    · rwa [result]

theorem run_take_succ {calls : List RamFsCall} {n : ℕ} {call : RamFsCall}
    (next : calls[n]? = some call) :
    fs.run (calls.take (n + 1)) = (fs.run (calls.take n)).step call := by
  rw [run, take_add_one, next, foldl_append]
  rfl

theorem tree_of_rooted (only : fs.OnlyRoot) (calls : List RamFsCall) (n : ℕ)
    (rooted : ∀ m < n, ∀ call, calls[m]? = some call → call.Rooted (fs.run (calls.take m))) :
    (fs.run (calls.take n)).Tree := by
  induction n with
  | zero => exact only.tree
  | succ n ih =>
    have before := ih fun m earlier => rooted m (Nat.lt_succ_of_lt earlier)
    cases next : calls[n]? with
    | none =>
      rwa [take_add_one, next, toList_none, append_nil]
    | some call =>
      rw [run_take_succ next]
      exact (before.step_iff call).1.mpr (rooted n (Nat.lt_succ_self n) call next)

/-- The listings are exact all through a run exactly when each call adds paths only to directories
that exist. -/
theorem exact_run_iff (only : fs.OnlyRoot) (calls : List RamFsCall) :
    (∀ n, (fs.run (calls.take n)).Exact) ↔ ∀ (n : ℕ) (call : RamFsCall), calls[n]? = some call →
        call.Rooted (fs.run (calls.take n)) := by
  constructor
  · intro exact_always n
    induction n using Nat.strong_induction_on with
    | h n ih =>
      intro call next
      refine ((tree_of_rooted only calls n ih).step_iff call).2.mp ?_
      rw [← run_take_succ next]
      exact exact_always (n + 1)
  · intro rooted n
    exact (tree_of_rooted only calls n fun m _ => rooted m).exact

/-- The filesystem after its root is made. -/
def rootOnly : RamFs := new.step (.mkdir ['/'] 0)

theorem onlyRoot_rootOnly : rootOnly.OnlyRoot := by
  refine ⟨fun path found => ?_, _, rfl, rfl, rfl, rfl⟩
  by_contra other
  have absent : rootOnly.pathMap path = none := update_of_ne other _ _
  rw [Exists, absent] at found
  cases found

theorem isName_a : IsName ['a'] := ⟨by decide, by decide⟩

theorem isName_b : IsName ['b'] := ⟨by decide, by decide⟩

theorem childOf_a : ChildOf ['/'] ['a'] "/a".toList := ⟨.root, isName_a, rfl⟩

theorem childOf_b : ChildOf "/a".toList ['b'] "/a/b".toList :=
  ⟨childOf_a.normalised, isName_b, rfl⟩

/-- A directory, a file in it, and the file is deleted again. -/
theorem exact_run_nested : rootOnly.OnlyRoot ∧ ∀ n, (rootOnly.run
    ([.mkdir "/a".toList 0, .createFile "/a/b".toList [7] 0,
      .delete "/a/b".toList].take n)).Exact := by
  refine ⟨onlyRoot_rootOnly, (exact_run_iff onlyRoot_rootOnly _).mpr fun n call next => ?_⟩
  intro path new vacant
  match n, next with
  | 0, rfl =>
    cases new
    exact ⟨_, _, childOf_a, _, rfl, rfl⟩
  | 1, rfl =>
    cases new
    exact ⟨_, _, childOf_b, _, rfl, rfl⟩
  | 2, rfl => cases new

/-- A directory whose parent does not exist. -/
theorem not_exact_orphan : ¬∀ (fs : RamFs) (calls : List RamFsCall), fs.OnlyRoot →
    (∀ call ∈ calls, call.Normal) → (fs.run calls).Exact := by
  intro always
  have exact_after := always rootOnly [.mkdir "/a/b".toList 0] onlyRoot_rootOnly
    (forall_mem_singleton.mpr childOf_b.normalised)
  obtain ⟨d, name, child, isDir⟩ := (onlyRoot_rootOnly.tree.step_iff
    (.mkdir "/a/b".toList 0)).2.mp exact_after "/a/b".toList rfl rfl
  cases childOf_b.pathParent_eq.symm.trans child.pathParent_eq
  obtain ⟨id, mapped⟩ := isDir.exists
  cases mapped

/-! ## Coherence

A path is added to the list of the inode that is at its parent then, and only the inode that is
there when it is deleted loses it. These are the same one unless the first is gone, with its
list: a number in a list always stands for a path whose parent is the path of the list. -/

/-- A file has its size, and the list of the inode at a path is of paths below it. -/
structure Listed (fs : RamFs) (path : FilePath) (inode : Inode) : Prop where
  sized : inode.inodeType = .file → inode.size = .ofNat inode.data.length
  links : fs.Links path inode.children

/-- The map and the inodes belong together, whatever paths were used. -/
structure Coherent (fs : RamFs) : Prop where
  live : ∀ id, (fs.inodes id).isSome ↔ ∃ path, fs.pathMap path = some id
  listed : ∀ ⦃path inode⦄, fs.inodeAt path = some inode → fs.Listed path inode

theorem isSome_updateParent (id : ℕ) :
    (fs.updateParent path f id).isSome = (fs.inodes id).isSome := by
  unfold updateParent
  cases (pathParent path).bind fs.pathMap with
  | none => rfl
  | some parentId => by_cases same : id = parentId <;> simp [same]

theorem Listed.relinked {fs' : RamFs} {other : FilePath} {inode : Inode}
    (listed : fs.Listed other inode) (links : fs'.Links other
      (if pathParent path = some other then f inode.children else inode.children)) :
    fs'.Listed other (relinked path other f inode) := by
  refine ⟨?_, by rwa [relinked_children]⟩
  unfold RamFs.relinked
  split_ifs <;> exact listed.sized

section

variable (coherent : fs.Coherent)

include coherent

theorem Coherent.addInode (vacant : fs.pathMap path = none)
    (fresh : ∀ id, (fs.addInode path inode).Listed path (inode id)) :
    (fs.addInode path inode).Coherent := by
  refine ⟨fun id => ?_, fun p i at_p => ?_⟩
  · by_cases new : id = fs.nextInode
    · subst new
      exact iff_of_true (by simp [RamFs.addInode]) ⟨path, update_self ..⟩
    have old : ((fs.addInode path inode).inodes id).isSome = (fs.inodes id).isSome :=
      (congrArg isSome (update_of_ne new _ _)).trans (isSome_updateParent id)
    rw [old, coherent.live]
    refine exists_congr fun p => ⟨pathMap_addInode_of_vacant vacant, fun mapped => ?_⟩
    rcases pathMap_addInode_eq_some_iff.mp mapped with ⟨-, same⟩ | ⟨-, mapped⟩
    · exact absurd (some.inj same).symm new
    · exact mapped
  · by_cases new : p = path
    · subst new
      cases at_p.symm.trans (fs.inodeAt_addInode_self)
      exact fresh _
    · rw [fs.inodeAt_addInode_of_ne new, map_eq_some_iff] at at_p
      obtain ⟨old, found, rfl⟩ := at_p
      have listed := coherent.listed found
      exact listed.relinked (listed.links.addInode vacant)

theorem Coherent.remove (mapped : fs.pathMap path = some id) : (fs.remove path id).Coherent := by
  refine ⟨fun i => ?_, fun p inode at_p => ?_⟩
  · by_cases gone : i = id
    · subst gone
      refine iff_of_false (by simp [RamFs.remove]) fun ⟨p, found⟩ => ?_
      obtain ⟨ne, found⟩ := pathMap_remove_eq_some_iff.mp found
      exact ne (fs.path_inj found mapped)
    · have old : ((fs.remove path id).inodes i).isSome = (fs.inodes i).isSome :=
        (congrArg isSome (update_of_ne gone _ _)).trans (isSome_updateParent i)
      rw [old, coherent.live]
      exact exists_congr fun p => ⟨fun found => pathMap_remove_of_ne_id mapped found gone,
        fun found => (pathMap_remove_eq_some_iff.mp found).2⟩
  · have ne : p ≠ path := by
      rintro rfl
      simp [inodeAt, RamFs.remove] at at_p
    rw [inodeAt_remove_of_ne mapped ne, map_eq_some_iff] at at_p
    obtain ⟨old, found, rfl⟩ := at_p
    have listed := coherent.listed found
    exact listed.relinked (listed.links.remove mapped)

theorem Coherent.store {inode : Inode} (stored : fs.inodes id = some inode)
    (data : List UInt8) (now : UInt64) : (fs.store id (inode.withData data now)).Coherent := by
  refine ⟨fun i => ?_, fun p new at_p => ?_⟩
  · refine Iff.trans ?_ (coherent.live i)
    by_cases same : i = id
    · subst same
      simp [RamFs.store, stored]
    · simp [RamFs.store, update_of_ne same]
  · obtain ⟨i, mapped, found⟩ := bind_eq_some_iff.mp at_p
    have at_old := inodeAt_of_pathMap (show fs.pathMap p = some i from mapped)
    rcases update_eq_some_iff.mp found with ⟨rfl, new⟩ | ⟨-, found⟩
    · cases new
      have listed := coherent.listed (at_old.trans stored)
      exact ⟨fun _ => rfl, listed.links.nodup, listed.links.below⟩
    · have listed := coherent.listed (at_old.trans found)
      exact ⟨listed.sized, listed.links.nodup, listed.links.below⟩

theorem Coherent.step (call : RamFsCall) : (fs.step call).Coherent := by
  rcases fs.step_cases call with ⟨path, inode, root, -, vacant, fresh, result⟩ | ⟨-, rest⟩
  · rw [result]
    have made := coherent.addInode vacant fun id => by
      obtain ⟨-, empty, sized⟩ := fresh id
      exact ⟨sized, empty ▸ nodup_nil, by simp [empty]⟩
    refine ⟨made.live, fun p i at_p => ?_⟩
    obtain ⟨sized, nodup, below⟩ := made.listed at_p
    exact ⟨sized, nodup, below⟩
  · rcases rest with ⟨path, id, file, mapped, -, -, result⟩ |
      ⟨id, inode, data, now, stored, result⟩ | result
    · rw [result]
      exact coherent.remove mapped
    · rw [result]
      exact coherent.store stored data now
    · rwa [result]

theorem Coherent.run (calls : List RamFsCall) : (fs.run calls).Coherent := by
  induction calls generalizing fs with
  | nil => exact coherent
  | cons call calls ih => exact ih (coherent.step call)

end

/-- Paths and inodes correspond to each other, a child list holds inodes that exist, each once, no
inode is in two lists, and the sizes of files are right. -/
theorem run_coherent (calls : List RamFsCall) :
    let fs := new.run calls
    (∀ path id, fs.pathMap path = some id → (fs.inodes id).isSome) ∧
      ∀ id inode, fs.inodes id = some inode → (∃! path, fs.pathMap path = some id) ∧
        inode.children.Nodup ∧ (∀ c ∈ inode.children, (fs.inodes c).isSome) ∧
        (∀ c ∈ inode.children, ∀ id' inode', fs.inodes id' = some inode' →
          c ∈ inode'.children → id' = id) ∧
        (inode.inodeType = .file → inode.size = .ofNat inode.data.length) := by
  intro fs
  have empty : new.Coherent := ⟨fun id => by simp [new], nofun⟩
  have coherent : fs.Coherent := empty.run calls
  have at_path {id : ℕ} {inode : Inode} (stored : fs.inodes id = some inode) :
      ∃ path, fs.pathMap path = some id ∧ fs.Listed path inode := by
    obtain ⟨path, mapped⟩ := (coherent.live id).mp (by rw [stored]; rfl)
    exact ⟨path, mapped, coherent.listed ((inodeAt_of_pathMap mapped).trans stored)⟩
  refine ⟨fun path id mapped => (coherent.live id).mpr ⟨path, mapped⟩, fun id inode stored => ?_⟩
  obtain ⟨path, mapped, listed⟩ := at_path stored
  refine ⟨⟨path, mapped, fun other found => fs.path_inj found mapped⟩, listed.links.nodup,
    fun c mem => ?_, fun c mem id' inode' stored' member' => ?_, listed.sized⟩
  · obtain ⟨child, found, -⟩ := listed.links.below c mem
    exact (coherent.live c).mpr ⟨child, found⟩
  obtain ⟨path', mapped', listed'⟩ := at_path stored'
  obtain ⟨child, found, parent⟩ := listed.links.below c mem
  obtain ⟨child', found', parent'⟩ := listed'.links.below c member'
  -- the two lists are at the parent of one path
  cases fs.path_inj found found'
  cases parent.symm.trans parent'
  exact some.inj (mapped'.symm.trans mapped)

end RamFs

end SmartOs.Vfs
