/-
# Reading back from a FAT32 volume

What a successful `write_file` on a consistent volume leaves to read. The data is in place and no
other chain is touched, so everything depends on the name. It is stored as eight and three
characters, and read back only if these give the name again and no earlier entry does. A longer
name is cut off: the file is not found under it, and the entry may be that of another file.
-/

import SmartOs.Drivers.Fat32Write

namespace SmartOs.Drivers.Fat32

open CS Math Vfs List Option Fat32Fs Except

variable {start : UInt32}

/-! ## Directories with one entry replaced -/

theorem listed_append {front : List DirEntry} (before : ∀ e ∈ front, e.mark ≠ 0)
    (back : List DirEntry) : listed (front ++ back) = listed front ++ listed back := by
  induction front with
  | nil => rfl
  | cons e front ih =>
    obtain ⟨going, before⟩ := forall_mem_cons.mp before
    rw [cons_append, listed, listed, if_neg going, ih before]
    split
    · rfl
    · split <;> rfl

theorem lookup_append (target : FilePath) (directory : Bool)
    (front back : List (FilePath × DirEntry)) : lookup target directory (front ++ back) =
      (lookup target directory front).or (lookup target directory back) := by
  rw [lookup, find?_append, map_or]
  rfl

theorem lookup_cons (target : FilePath) (directory : Bool) (item : FilePath × DirEntry)
    (rest : List (FilePath × DirEntry)) : lookup target directory (item :: rest) =
      if toUppercaseSimple item.1 = toUppercaseSimple target ∧ item.2.isDirectory = directory
      then some item.2 else lookup target directory rest := by
  rw [lookup, find?_cons]
  split
  next reads =>
    rw [Bool.and_eq_true, decide_eq_true_iff, decide_eq_true_iff] at reads
    rw [if_pos reads, map_some]
  next reads =>
    rw [Bool.and_eq_false_iff, decide_eq_false_iff_not, decide_eq_false_iff_not] at reads
    rw [if_neg (by tauto), lookup]

/-- The short name of a file reads as its name. -/
def Legible (name : FilePath) : Prop :=
  (toShortName name).headD 0 ∉ [0x00, 0xE5, 0x2E] ∧
    toUppercaseSimple (fromShortName (toShortName name)) = toUppercaseSimple name

instance (name : FilePath) : Decidable (Legible name) := inferInstanceAs (Decidable (_ ∧ _))

variable {directory : Bool}

section FileEntry

variable {name : FilePath} (start fileSize : UInt32) (back : List DirEntry)

variable (shortName : List UInt8)

@[simp] theorem mark_fileEntry :
    (fileEntry shortName start fileSize).mark = shortName.headD 0 := rfl

@[simp] theorem isFree_fileEntry : (fileEntry shortName start fileSize).isFree =
      (decide (shortName.headD 0 = 0x00) || decide (shortName.headD 0 = 0xE5)) := rfl

theorem kind_fileEntry : (fileEntry shortName start fileSize).isLongName = false ∧
      (fileEntry shortName start fileSize).isVolumeId = false ∧
      (fileEntry shortName start fileSize).isDirectory = false := by
  have attributes : decide ((0x20 : UInt8) = attrLongName) = false ∧
      (decide ((0x20 : UInt8) &&& attrVolumeId ≠ 0) &&
        decide ((0x20 : UInt8) &&& attrDirectory = 0)) = false ∧
      decide ((0x20 : UInt8) &&& attrDirectory ≠ 0) = false := by decide
  exact attributes

theorem listed_fileEntry (marks : (toShortName name).headD 0 ∉ [0x00, 0xE5, 0x2E]) :
    listed (fileEntry (toShortName name) start fileSize :: back) =
      (fromShortName (toShortName name), fileEntry (toShortName name) start fileSize) ::
        listed back := by
  simp only [mem_cons, not_or] at marks
  obtain ⟨going, used, file⟩ := marks
  simp only [listed, mark_fileEntry, isFree_fileEntry, kind_fileEntry, going, used, file]
  rfl

theorem lookup_fileEntry (legible : Legible name) :
    lookup name false (listed (fileEntry (toShortName name) start fileSize :: back)) =
      some (fileEntry (toShortName name) start fileSize) := by
  rw [listed_fileEntry _ _ _ legible.1, lookup_cons]
  exact if_pos ⟨legible.2, (kind_fileEntry ..).2.2⟩

/-- Other names, and directories, are found behind the entry. -/
theorem lookup_fileEntry_of_ne {target : FilePath} (legible : Legible name)
    (other : directory ∨ toUppercaseSimple target ≠ toUppercaseSimple name) :
    lookup target directory (listed (fileEntry (toShortName name) start fileSize :: back)) =
      lookup target directory (listed back) := by
  rw [listed_fileEntry _ _ _ legible.1, lookup_cons, if_neg]
  rintro ⟨reads, kind⟩
  rcases other with rfl | ne
  · rw [(kind_fileEntry ..).2.2] at kind
    cases kind
  · exact ne (reads.symm.trans legible.2)

/-- A name that is not legible is not looked for in its entry. -/
theorem lookup_fileEntry_of_not_legible (illegible : ¬Legible name) : ∃ result, ∀ start fileSize,
      lookup name false (listed (fileEntry (toShortName name) start fileSize :: back)) =
        result := by
  by_cases marks : (toShortName name).headD 0 ∉ [0x00, 0xE5, 0x2E]
  · refine ⟨lookup name false (listed back), fun start fileSize => ?_⟩
    rw [listed_fileEntry _ _ _ marks, lookup_cons, if_neg]
    exact fun reads => illegible ⟨marks, reads.1⟩
  -- The entry ends the directory or is passed over, whatever else is in it.
  simp only [mem_cons, not_mem_nil, or_false, not_not] at marks
  by_cases ended : (toShortName name).headD 0 = 0
  · refine ⟨none, fun start fileSize => ?_⟩
    simp only [listed, mark_fileEntry, ended]
    rfl
  refine ⟨lookup name false (listed back), fun start fileSize => ?_⟩
  rcases marks with zero | free | dot
  · exact absurd zero ended
  · rw [listed, mark_fileEntry, if_neg ended, if_pos]
    simp only [isFree_fileEntry, free, decide_true, Bool.or_true, Bool.true_or]
  · simp only [listed, mark_fileEntry, dot, if_true, ite_self]
    rfl

end FileEntry

variable {e : DirEntry}

/-- With a legible name in a place for it, what else was found in the directory is still found. -/
theorem lookup_replaced {front back : List DirEntry} {old : DirEntry} {name target : FilePath}
    (before : ∀ e ∈ front, e.mark ≠ 0) (place : old.isFree ∨ old.name = toShortName name)
    (legible : Legible name) (noDirectory : lookup name true (listed (front ++ old :: back)) = none)
    (other : directory ∨ toUppercaseSimple target ≠ toUppercaseSimple name)
    (found : lookup target directory (listed (front ++ old :: back)) = some e)
    (start fileSize : UInt32) : lookup target directory
      (listed (front ++ fileEntry (toShortName name) start fileSize :: back)) = some e := by
  rw [listed_append before, lookup_append] at found noDirectory ⊢
  rw [lookup_fileEntry_of_ne _ _ _ legible other]
  cases first : lookup target directory (listed front) with
  | some e' => rwa [first] at found
  | none =>
    rw [first] at found
    -- The entry that was here before is not the one that was found.
    rw [listed] at found
    split at found
    · cases found
    split at found
    · exact found
    next visible =>
      split at found
      · exact found
      next going dot =>
        rw [lookup_cons] at found
        split at found
        next reads =>
          simp only [Bool.or_eq_true, not_or] at visible
          have same := place.resolve_left visible.1.1
          rw [same, legible.2] at reads
          rcases other with rfl | ne
          · rw [or_eq_none_iff, listed, if_neg going, if_neg (by simpa using visible),
              if_neg dot, lookup_cons, same, legible.2, if_pos ⟨rfl, reads.2⟩] at noDirectory
            cases noDirectory.2
          · exact absurd reads.1.symm ne
        next => exact found

/-! ## Consistent volumes -/

variable {c : UInt32} {o : Owner}

namespace Volume

variable {vol vol' : Volume} {path : FilePath} {data : List UInt8}

theorem Owns.unique {c' : UInt32} (owned : vol.Owns o c) (owned' : vol.Owns o c') : c = c' := by
  cases owned with
  | root => cases owned' with | root => rfl
  | entry _ listing at_i _ start =>
    cases owned' with
    | entry _ listing' at_i' _ start' =>
      cases listing.symm.trans listing'
      cases at_i.symm.trans at_i'
      exact start.symm.trans start'

variable {dir d : UInt32}

theorem isDirectory_of_dirCluster (found : vol.dirCluster path = .ok d) : vol.IsDirectory d := by
  rw [dirCluster_eq] at found
  exact isDirectory_of_foldlM found

theorem Consistent.apart_directory (consistent : vol.Consistent) (known : vol.IsDirectory dir)
    (known' : vol.IsDirectory d) (ne : d ≠ dir) (reached : Reaches vol.fs.nextCluster d c) :
    ¬Reaches vol.fs.nextCluster dir c := by
  intro reached'
  obtain ⟨o, owned⟩ := known.owned
  obtain ⟨o', owned'⟩ := known'.owned
  cases consistent.disjoint owned owned' reached' reached
  exact ne (owned'.unique owned)

section File

variable (known' : vol.IsDirectory d) {entries : List (FilePath × DirEntry)}
  (listing : vol.readDirEntries d = .ok entries) {i : ℕ} {item : FilePath × DirEntry}
  (at_i : entries[i]? = some item) (reached : Reaches vol.fs.nextCluster item.2.startCluster c)

include known' listing at_i reached

/-- The chain of a file without clusters is its first number. -/
theorem owns_or_lt_two : vol.Owns (.entry d i) item.2.startCluster ∨ c < 2 := by
  rcases lt_or_ge item.2.startCluster.toNat 2 with none | some
  · have low : item.2.startCluster < 2 := UInt32.lt_iff_toNat_lt.mpr none
    have ends : Linked vol.fs.nextCluster [item.2.startCluster] := if_pos (.inl low)
    obtain rfl := mem_singleton.mp (ends.mem_of_reaches reached)
    exact .inr low
  · exact .inl (.entry known' listing at_i (.inr (UInt32.le_iff_toNat_le.mpr some)) rfl)

theorem Consistent.apart_file (consistent : vol.Consistent) (known : vol.IsDirectory dir)
    (file : item.2.isDirectory = false) : ¬Reaches vol.fs.nextCluster dir c := by
  intro reached'
  rcases owns_or_lt_two known' listing at_i reached with owned' | low
  · cases known with
    | root => cases consistent.disjoint .root owned' reached' reached
    | entry parent listing' mem directory start =>
      obtain ⟨j, at_j⟩ := getElem?_of_mem mem
      cases consistent.disjoint (.entry parent listing' at_j (.inl directory) start) owned'
        reached' reached
      cases listing.symm.trans listing'
      cases at_i.symm.trans at_j
      rw [file] at directory
      cases directory
  · obtain ⟨o, owned⟩ := known.owned
    exact absurd low (UInt32.not_lt.mpr (consistent.taken owned reached').1)

end File

/-! ### Writing the data and the table -/

/-- Paths lead to the same directories if these have the same entries. -/
theorem foldlM_enter_congr
    (same : ∀ d, vol.IsDirectory d → vol'.readDirEntries d = vol.readDirEntries d)
    (known : vol.IsDirectory dir) (parts : List FilePath) :
    parts.foldlM vol'.enter dir = parts.foldlM vol.enter dir := by
  induction parts generalizing dir with
  | nil => rw [foldlM_nil, foldlM_nil]
  | cons part parts ih =>
    have first : vol'.enter dir part = vol.enter dir part := by
      rw [enter, enter, same dir known]
    rw [foldlM_cons, foldlM_cons, first]
    cases entered : vol.enter dir part with
    | error e => simp [bind, Except.bind]
    | ok next =>
      exact ih (isDirectory_of_enter known entered)

variable {parts : List FilePath}

/-- A way leads to the same directory if every step of it does. -/
theorem foldlM_enter_kept (kept : ∀ (front : List FilePath) d,
      front.length < parts.length → front.foldlM vol.enter vol.fs.bpb.rootCluster = .ok d →
      ∀ {part c}, vol.enter d part = .ok c → vol'.enter d part = .ok c)
    (reached : parts.foldlM vol.enter vol.fs.bpb.rootCluster = .ok c) :
    parts.foldlM vol'.enter vol.fs.bpb.rootCluster = .ok c := by
  induction parts using reverseRecOn generalizing c with
  | nil => rwa [foldlM_nil] at reached ⊢
  | append_singleton parts part ih =>
    rw [length_append, length_singleton] at kept
    obtain ⟨d, front, entered⟩ := foldlM_enter_concat.mp reached
    exact foldlM_enter_concat.mpr ⟨d, ih (fun front d shorter => kept front d (by omega)) front,
      kept parts d (by omega) front entered⟩

section Stored

variable (consistent : vol.Consistent) {clusters : List UInt32}
  (free : ∀ c ∈ clusters, c ∈ vol.fs.freeClusters)

include consistent free

theorem Consistent.agreeOn_stored (owned : vol.Owns o start)
    (reached : Reaches vol.fs.nextCluster start c) : vol.AgreeOn (vol.stored data clusters) c :=
  Volume.agreeOn_stored consistent.table fun taken =>
    (consistent.taken owned reached).2 (of_mem_freeClusters (free c taken)).2

theorem Consistent.readChain_stored (known : vol.IsDirectory dir) :
    (vol.stored data clusters).readChain dir = vol.readChain dir := by
  obtain ⟨o, owned⟩ := known.owned
  exact readChain_congr sameLayout_stored fun d reached =>
    consistent.agreeOn_stored free owned reached

theorem Consistent.dirCluster_stored :
    (vol.stored data clusters).dirCluster path = vol.dirCluster path := by
  have same (d : UInt32) (known : vol.IsDirectory d) :
      (vol.stored data clusters).readDirEntries d = vol.readDirEntries d := by
    rw [readDirEntries, readDirEntries, consistent.readChain_stored free known]
  rw [dirCluster_eq, dirCluster_eq]
  exact foldlM_enter_congr same .root _

/-- The chain of a directory, and the sectors of it, before and after the data is written. -/
theorem Consistent.chain_stored {chain : List UInt32} (known : vol.IsDirectory dir)
    (linked : Linked vol.fs.nextCluster (dir :: chain)) :
    Linked (vol.fs.take clusters).nextCluster (dir :: chain) ∧
      ∀ lba ∈ vol.fs.sectorsOfAll (dir :: chain),
        (vol.stored data clusters).disk.sectors lba = vol.disk.sectors lba := by
  obtain ⟨o, owned⟩ := known.owned
  have agree {c : UInt32} (mem : c ∈ dir :: chain) : vol.AgreeOn (vol.stored data clusters) c :=
    consistent.agreeOn_stored free owned (linked.reaches mem)
  refine ⟨linked.congr fun c mem => (agree mem).1, fun lba mem => ?_⟩
  obtain ⟨c, mem, inside⟩ := mem_flatMap.mp mem
  exact (agree mem).2 lba inside

end Stored

/-- What a write to a path finds before it: clusters for the data, and a place for the entry. -/
structure Target (vol : Volume) (path : FilePath) (needed : ℕ) where
  start : UInt32
  rest : List UInt32
  dir : UInt32
  chain : List UInt32
  slot : ℕ
  lba : ℕ
  taken : vol.fs.freeClusters.take needed = start :: rest
  enough : rest.length + 1 = needed
  inside : ∀ lba ∈ vol.fs.sectorsOfAll (start :: rest), lba < vol.disk.capacity
  table : ∀ lba ∈ range' vol.fs.bpb.fatStartSector ((vol.fs.fatCache.length + 127) / 128),
    lba < vol.disk.capacity
  found : vol.dirCluster path = .ok dir
  read : vol.readChain dir = .ok (vol.disk.contents (vol.fs.sectorsOfAll (dir :: chain)))
  place : findSlot (toShortName (splitPath path).2)
    (dirSlots (vol.disk.contents (vol.fs.sectorsOfAll (dir :: chain)))) 0 none = some slot
  linked : Linked vol.fs.nextCluster (dir :: chain)
  at_slot : (vol.fs.sectorsOfAll (dir :: chain))[slot / 16]? = some lba

namespace Target

variable {needed : ℕ} (target : vol.Target path needed)

/-- The clusters for the data. -/
def clusters : List UInt32 := target.start :: target.rest

/-- The entry for the data. -/
def entry (data : List UInt8) : DirEntry :=
  fileEntry (toShortName (splitPath path).2) target.start (UInt32.ofNat data.length)

/-- The entries of the directory. -/
def slots : List DirEntry :=
  dirSlots (vol.disk.contents (vol.fs.sectorsOfAll (target.dir :: target.chain)))

/-- The volume once all is written. -/
def written (data : List UInt8) : Volume where
  fs := vol.fs.take target.clusters
  disk := (vol.stored data target.clusters).disk.put target.lba
    (patch (vol.disk.sectors target.lba) (target.slot % 16 * 32)
      (entryBytes (toShortName (splitPath path).2) target.start (UInt32.ofNat data.length)))

theorem free : ∀ c ∈ target.clusters, c ∈ vol.fs.freeClusters := fun _ mem =>
  mem_of_mem_take (by rwa [clusters, ← target.taken] at mem)

theorem isDirectory : vol.IsDirectory target.dir := isDirectory_of_dirCluster target.found

end Target

/-- On a consistent volume a write is decided by what it finds there, and changes that only. -/
theorem Consistent.writeFile_eq_ok_iff (consistent : vol.Consistent) :
    writeFile path data vol = .ok () vol' ↔
      ∃ target : vol.Target path (vol.fs.clustersNeeded data), target.written data = vol' := by
  rw [Fat32.writeFile_eq_ok_iff]
  constructor
  · rintro ⟨start, rest, dir, disk', taken, enough, inside, table, found, entered, rfl⟩
    have free : ∀ c ∈ start :: rest, c ∈ vol.fs.freeClusters := fun c mem =>
      mem_of_mem_take (taken ▸ mem)
    rw [consistent.dirCluster_stored free] at found
    have known := isDirectory_of_dirCluster found
    obtain ⟨raw, slot, chain, lba, read, place, linked, at_slot, rfl⟩ :=
      updateOrCreateEntry_eq_ok_iff.mp entered
    have read' : vol.readChain dir = .ok raw :=
      (consistent.readChain_stored free known).symm.trans read
    obtain ⟨chain', linked', -, -, rfl⟩ := readChainFrom_eq_ok_iff.mp read'
    obtain ⟨kept, sectors⟩ := consistent.chain_stored free known linked'
    obtain rfl := linked.unique kept
    refine ⟨⟨start, rest, dir, chain, slot, lba, taken, enough, inside, table, found, read', place,
      linked', at_slot⟩, ?_⟩
    rw [Target.written, Target.clusters, sectors lba (mem_of_getElem? at_slot)]
  · rintro ⟨target, rfl⟩
    obtain ⟨kept, sectors⟩ :=
      consistent.chain_stored target.free target.isDirectory target.linked
    refine ⟨target.start, target.rest, target.dir, _, target.taken, target.enough, target.inside,
      target.table, ?_, ?_, rfl⟩
    · exact (consistent.dirCluster_stored target.free).trans target.found
    refine updateOrCreateEntry_eq_ok_iff.mpr ⟨_, target.slot, target.chain, target.lba,
      (consistent.readChain_stored target.free target.isDirectory).trans target.read,
      target.place, kept, target.at_slot, ?_⟩
    exact congrArg (fun sec => Disk.put _ _ (patch sec _ _))
      (sectors _ (mem_of_getElem? target.at_slot))

/-! ### After the write -/

namespace Target

variable {needed : ℕ} {target : vol.Target path needed}

/-- The entry is in a sector of the directory. -/
theorem exists_cluster :
    ∃ c, Reaches vol.fs.nextCluster target.dir c ∧ target.lba ∈ vol.fs.sectorsOf c := by
  obtain ⟨c, mem, inside⟩ := mem_flatMap.mp (mem_of_getElem? target.at_slot)
  exact ⟨c, target.linked.reaches mem, inside⟩

theorem capacity_written : (target.written data).disk.capacity = vol.disk.capacity :=
  capacity_fill (vol.fs.take target.clusters) target.clusters

theorem sameLayout_written : vol.SameLayout (target.written data) := ⟨rfl, capacity_written⟩

theorem sectors_written {lba : ℕ} (mem : lba ∈ vol.fs.sectorsOf c)
    (apart : ¬Reaches vol.fs.nextCluster target.dir c) : (target.written data).disk.sectors lba =
      (vol.stored data target.clusters).disk.sectors lba := by
  refine Function.update_of_ne (fun same => ?_) ..
  obtain ⟨c', reached, inside⟩ := target.exists_cluster
  rw [← same] at inside
  exact apart (eq_of_mem_sectorsOf mem inside ▸ reached)

section

variable (consistent : vol.Consistent)
include consistent

theorem agreeOn_written (kept : c ∉ target.clusters)
    (apart : ¬Reaches vol.fs.nextCluster target.dir c) : vol.AgreeOn (target.written data) c := by
  refine ⟨nextCluster_take kept, fun lba mem => ?_⟩
  exact (sectors_written mem apart).trans
    ((agreeOn_stored consistent.table kept).2 lba mem)

theorem notMem_clusters (owned : vol.Owns o start)
    (reached : Reaches vol.fs.nextCluster start c) : c ∉ target.clusters := fun taken =>
  (consistent.taken owned reached).2 (of_mem_freeClusters (target.free c taken)).2

theorem readDirEntries_of_ne (known : vol.IsDirectory d) (other : d ≠ target.dir) :
    (target.written data).readDirEntries d = vol.readDirEntries d := by
  obtain ⟨o, owned⟩ := known.owned
  rw [readDirEntries, readDirEntries, readChain_congr sameLayout_written fun c reached =>
    agreeOn_written consistent (notMem_clusters consistent owned reached)
      (consistent.apart_directory target.isDirectory known other reached)]

theorem enter_of_ne (known : vol.IsDirectory d) (other : d ≠ target.dir) {part : FilePath}
    (entered : vol.enter d part = .ok c) : (target.written data).enter d part = .ok c := by
  rw [enter, readDirEntries_of_ne consistent known other]
  exact entered

theorem readDirEntries_dir : (target.written data).readDirEntries target.dir =
      .ok (listed (target.slots.set target.slot (target.entry data))) := by
  obtain ⟨kept, sectors⟩ :=
    consistent.chain_stored target.free target.isDirectory target.linked
  obtain ⟨chain, linked, short, inside, -⟩ := readChainFrom_eq_ok_iff.mp target.read
  obtain rfl := target.linked.unique linked
  have read : (target.written data).readChain target.dir =
      .ok ((target.written data).disk.contents
        (vol.fs.sectorsOfAll (target.dir :: target.chain))) :=
    readChainFrom_eq_ok_iff.mpr ⟨target.chain, kept, short,
      fun lba mem => by rw [capacity_written]; exact inside lba mem, rfl⟩
  have replaced := dirSlots_patch (vol.stored data target.clusters).disk
    (nodup_sectorsOfAll target.linked.nodup) target.at_slot
    (length_toShortName (splitPath path).2) target.start (UInt32.ofNat data.length)
  rw [sectors _ (mem_of_getElem? target.at_slot), contents_congr sectors] at replaced
  rw [readDirEntries, read]
  exact congrArg (fun slots => ok (listed slots)) replaced

end

theorem needed_le (target : vol.Target path needed) : needed ≤ 32766 := by
  have free := vol.fs.length_freeClusters_le
  have table := vol.fs.cache_length_le
  have taken := congrArg length target.taken
  rw [length_take, length_cons, target.enough] at taken
  omega

section

variable (consistent : vol.Consistent)
include consistent

theorem readChain_start : (target.written data).readChain target.start =
      .ok (data.take (needed * vol.fs.spc * sectorSize) ++
        replicate (needed * vol.fs.spc * sectorSize - data.length) 0) := by
  have distinct : target.clusters.Nodup := by
    rw [clusters, ← target.taken]
    exact nodup_freeClusters.sublist (take_sublist _ _)
  have length : target.clusters.length = needed := target.enough
  have short : target.rest.length ≤ 65536 := by
    have few := target.needed_le
    have enough := target.enough
    omega
  have same : ∀ lba ∈ vol.fs.sectorsOfAll target.clusters, (target.written data).disk.sectors lba =
      (vol.stored data target.clusters).disk.sectors lba := by
    intro lba mem
    obtain ⟨c, taken, inside⟩ := mem_flatMap.mp mem
    obtain ⟨o, owned⟩ := target.isDirectory.owned
    exact sectors_written inside fun reached => notMem_clusters consistent owned reached taken
  refine readChainFrom_eq_ok_iff.mpr ⟨target.rest, linked_take distinct target.free, short,
    fun lba mem => by rw [capacity_written]; exact target.inside lba mem, ?_⟩
  have stored : (vol.stored data target.clusters).disk.contents _ = _ :=
    contents_stored consistent.table distinct
  rw [length] at stored
  exact (contents_congr same).trans stored

theorem dirCluster_written : (target.written data).dirCluster path = .ok target.dir := by
  have reached := target.found
  rw [dirCluster_eq] at reached ⊢
  refine @foldlM_enter_kept _ vol _ _ (fun front d shorter way => ?_) reached
  -- The way to the directory does not lead through it.
  refine enter_of_ne consistent (isDirectory_of_foldlM way) ?_
  rintro rfl
  have lengths := congrArg length (consistent.dirParts_unique way reached)
  rw [length_map, length_map] at lengths
  omega

theorem readFile_written {bytes : List UInt8} :
    (target.written data).readFile path = .ok bytes ↔ ∃ e, lookup (splitPath path).2 false
        (listed (target.slots.set target.slot (target.entry data))) = some e ∧
      (target.written data).fileBytes e = .ok bytes := by
  rw [readFile_eq_ok_iff]
  constructor
  · rintro ⟨dir, entries, e, found, listing, reads, result⟩
    obtain rfl := ok.inj ((dirCluster_written consistent).symm.trans found)
    obtain rfl := ok.inj ((readDirEntries_dir consistent).symm.trans listing)
    exact ⟨e, reads, result⟩
  · rintro ⟨e, reads, result⟩
    exact ⟨target.dir, _, e, dirCluster_written consistent, readDirEntries_dir consistent, reads,
      result⟩

end

theorem exists_split : ∃ front old back,
    target.slots = front ++ old :: back ∧ target.slots.take target.slot = front ∧
      (∀ e, target.slots.set target.slot e = front ++ e :: back) ∧
      (old.isFree ∨ old.name = toShortName (splitPath path).2) ∧ ∀ e ∈ front, e.mark ≠ 0 := by
  rcases findSlot_split target.place with impossible | ⟨front, old, back, split, slot, fits, before⟩
  · cases impossible
  rw [zero_add] at slot
  refine ⟨front, old, back, split, ?_, fun e => ?_, fits, before⟩
  · rw [slots, split, slot, take_left]
  · rw [slots, split, slot, set_append_right _ _ le_rfl, Nat.sub_self, set_cons_zero]

theorem readDirEntries_before : vol.readDirEntries target.dir = .ok (listed target.slots) := by
  rw [readDirEntries, target.read]
  rfl

end Target

/-! ## Reading back -/

theorem length_le_clustersNeeded (fs : Fat32Fs) (data : List UInt8) :
    data.length ≤ fs.clustersNeeded data * fs.spc * sectorSize := by
  have width : 0 < fs.spc * sectorSize := Nat.mul_pos spc_pos (by decide)
  rw [mul_assoc, clustersNeeded]
  split
  next empty => simp [empty]
  next =>
    have := Nat.lt_div_mul_add (a := data.length + fs.spc * sectorSize - 1) width
    omega

theorem clustersNeeded_of_length_le_one {fs : Fat32Fs}
    (short : data.length ≤ 1) : fs.clustersNeeded data = 1 := by
  have width : 0 < fs.spc * sectorSize := Nat.mul_pos spc_pos (by decide)
  rw [clustersNeeded]
  split
  next => rfl
  next some =>
    have one : data.length = 1 := by
      have := length_pos_iff.mpr some
      omega
    rw [one, Nat.add_sub_cancel_left, Nat.div_self width]

/-- The path's last component is not the name of a directory. -/
def NoDirectory (vol : Volume) (path : FilePath) : Prop :=
  ∀ dir entries, vol.dirCluster path = .ok dir → vol.readDirEntries dir = .ok entries →
    lookup (splitPath path).2 true entries = none

/-- The path reads as the data, and every other path that could be read reads as before. -/
def ReadsBack (vol vol' : Volume) (path : FilePath) (data : List UInt8) : Prop :=
  vol'.readFile path = .ok data ∧ ∀ q bytes, ¬SamePath q path → vol.readFile q = .ok bytes →
    vol'.readFile q = .ok bytes

/-- The name fits into a short name, and no file before the place of its entry reads the same. -/
def Recoverable (vol : Volume) (path : FilePath) : Prop :=
  Legible (splitPath path).2 ∧ ∀ dir raw slot, vol.dirCluster path = .ok dir →
    vol.readChain dir = .ok raw →
    findSlot (toShortName (splitPath path).2) (dirSlots raw) 0 none = some slot →
    lookup (splitPath path).2 false (listed ((dirSlots raw).take slot)) = none

namespace Target

variable {needed : ℕ} {target : vol.Target path needed}

theorem fileBytes_entry (consistent : vol.Consistent)
    (target : vol.Target path (vol.fs.clustersNeeded data)) :
    (target.written data).fileBytes (target.entry data) = .ok data := by
  have fits := length_le_clustersNeeded vol.fs data
  have small : data.length < 2 ^ 32 := by
    have width : vol.fs.spc ≤ 255 := Nat.le_of_lt_succ (UInt8.toNat_lt _)
    have sectors := Nat.mul_le_mul target.needed_le width
    rw [sectorSize] at fits
    omega
  have size : (target.entry data).fileSize.toNat = data.length :=
    UInt32.toNat_ofNat_of_lt' small
  rw [fileBytes, size, entry, startCluster_fileEntry, readChain_start consistent,
    take_of_length_le fits]
  exact congrArg ok take_left

/-- Entries that were found are still found, unless they read as the path's last component. -/
theorem lookup_written {name : FilePath} (legible : Legible (splitPath path).2)
    (noDirectory : vol.NoDirectory path)
    (other : directory ∨ toUppercaseSimple name ≠ toUppercaseSimple (splitPath path).2)
    (found : lookup name directory (listed target.slots) = some e) :
    lookup name directory (listed (target.slots.set target.slot (target.entry data))) = some e := by
  obtain ⟨front, old, back, split, -, replaced, fits, before⟩ := target.exists_split
  have free := noDirectory _ _ target.found target.readDirEntries_before
  rw [split] at found free
  rw [replaced]
  exact lookup_replaced before fits legible free other found _ _

/-- Directories that paths led to are still there. -/
theorem foldlM_kept (consistent : vol.Consistent) (legible : Legible (splitPath path).2)
    (noDirectory : vol.NoDirectory path)
    (reached : parts.foldlM vol.enter vol.fs.bpb.rootCluster = .ok c) :
    parts.foldlM (target.written data).enter vol.fs.bpb.rootCluster = .ok c := by
  refine foldlM_enter_kept (fun front d _ way part c entered => ?_) reached
  by_cases same : d = target.dir
  · subst same
    obtain ⟨entries, e, listing, found, start⟩ := enter_eq_ok_iff.mp entered
    obtain rfl := ok.inj (target.readDirEntries_before.symm.trans listing)
    exact enter_eq_ok_iff.mpr ⟨_, e, readDirEntries_dir consistent,
      lookup_written legible noDirectory (.inl rfl) found, start⟩
  · exact enter_of_ne consistent (isDirectory_of_foldlM way) same entered

theorem fileBytes_kept (consistent : vol.Consistent) (known : vol.IsDirectory d)
    {entries : List (FilePath × DirEntry)} (listing : vol.readDirEntries d = .ok entries) {i : ℕ}
    {item : FilePath × DirEntry} (at_i : entries[i]? = some item)
    (file : item.2.isDirectory = false) :
    (target.written data).fileBytes item.2 = vol.fileBytes item.2 := by
  have kept {c : UInt32} (reached : Reaches vol.fs.nextCluster item.2.startCluster c) :
      c ∉ target.clusters := by
    rcases owns_or_lt_two known listing at_i reached with owned | low
    · exact notMem_clusters consistent owned reached
    intro taken
    exact absurd (of_mem_freeClusters (target.free _ taken)).1
      (not_le.mpr (UInt32.lt_iff_toNat_lt.mp low))
  rw [fileBytes, fileBytes, readChain_congr sameLayout_written fun c reached =>
    agreeOn_written consistent (kept reached)
      (consistent.apart_file known listing at_i reached target.isDirectory file)]

/-- How long a file is that is read through an entry does not depend on the data. -/
theorem length_fileBytes {data' bytes bytes' : List UInt8}
    (read : (target.written data).fileBytes e = .ok bytes)
    (read' : (target.written data').fileBytes e = .ok bytes') : bytes.length = bytes'.length := by
  obtain ⟨raw, chain, result⟩ := except_bind_eq_ok_iff.mp read
  obtain ⟨raw', chain', result'⟩ := except_bind_eq_ok_iff.mp read'
  obtain ⟨rest, linked, -, -, rfl⟩ := readChainFrom_eq_ok_iff.mp chain
  obtain ⟨rest', linked', -, -, rfl⟩ := readChainFrom_eq_ok_iff.mp chain'
  obtain rfl := linked.unique linked'
  rw [← ok.inj result, ← ok.inj result', length_take, length_take, length_contents, length_contents]
  rfl

/-- A file of one cluster has a place if a larger one has. -/
def one (target : vol.Target path needed) : vol.Target path 1 :=
  { target with
    rest := []
    taken := by
      have first := congrArg (take 1) target.taken
      rwa [take_take, Nat.min_eq_left (by have := target.enough; omega)] at first
    enough := rfl
    inside := fun lba member => target.inside lba (by
      rw [sectorsOfAll, flatMap_cons]
      rw [sectorsOfAll, flatMap_singleton] at member
      exact mem_append_left _ member) }

end Target

theorem Consistent.writeFile_of_target (consistent : vol.Consistent) {needed : ℕ}
    (target : vol.Target path needed) (enough : vol.fs.clustersNeeded data = needed) :
    writeFile path data vol = .ok () (target.written data) := by
  subst enough
  exact consistent.writeFile_eq_ok_iff.mpr ⟨target, rfl⟩

theorem Recoverable.readsBack (recoverable : vol.Recoverable path) (consistent : vol.Consistent)
    (noDirectory : vol.NoDirectory path) (target : vol.Target path (vol.fs.clustersNeeded data)) :
    vol.ReadsBack (target.written data) path data := by
  obtain ⟨legible, unshadowed⟩ := recoverable
  constructor
  · obtain ⟨front, old, back, -, before_place, replaced, -, before⟩ := target.exists_split
    have none : lookup (splitPath path).2 false (listed front) = none := by
      rw [← before_place]
      exact unshadowed _ _ _ target.found target.read target.place
    refine (Target.readFile_written consistent).mpr
      ⟨target.entry data, ?_, target.fileBytes_entry consistent⟩
    rw [replaced, listed_append before, lookup_append, none, none_or]
    exact lookup_fileEntry _ _ _ legible
  · intro q bytes other read
    obtain ⟨d, entries, e, found, listing, reads, result⟩ := readFile_eq_ok_iff.mp read
    obtain ⟨i, name, at_i, -, file⟩ := of_lookup_eq_some reads
    have known := isDirectory_of_dirCluster found
    have reached := found
    rw [dirCluster_eq] at reached
    have found' : (target.written data).dirCluster q = .ok d := by
      rw [dirCluster_eq]
      exact Target.foldlM_kept consistent legible noDirectory reached
    have result' : (target.written data).fileBytes e = .ok bytes :=
      (Target.fileBytes_kept consistent known listing at_i file).trans result
    by_cases same : d = target.dir
    · subst same
      -- In the same directory the last components must differ.
      have ne :
          toUppercaseSimple (splitPath q).2 ≠ toUppercaseSimple (splitPath path).2 := by
        intro names
        have reached' := target.found
        rw [dirCluster_eq] at reached'
        exact other ⟨consistent.dirParts_unique reached reached', names⟩
      obtain rfl := ok.inj (target.readDirEntries_before.symm.trans listing)
      exact readFile_eq_ok_iff.mpr ⟨_, _, e, found', Target.readDirEntries_dir consistent,
        Target.lookup_written legible noDirectory (.inr ne) reads, result'⟩
    · refine readFile_eq_ok_iff.mpr ⟨d, entries, e, found', ?_, reads, result'⟩
      rw [Target.readDirEntries_of_ne consistent known same, listing]

/-- A successful write is read back, whatever the data is, exactly if the name is recoverable. -/
theorem writeFile_readsBack_iff (consistent : vol.Consistent) (noDirectory : vol.NoDirectory path)
    (possible : ∃ data vol', writeFile path data vol = .ok () vol') :
    (∀ data vol', writeFile path data vol = .ok () vol' → vol.ReadsBack vol' path data) ↔
      vol.Recoverable path := by
  constructor
  · intro intact
    obtain ⟨data, vol', ok⟩ := possible
    obtain ⟨target, -⟩ := consistent.writeFile_eq_ok_iff.mp ok
    -- An entry that is read instead of the new one has one length for all data.
    have reads (data : List UInt8) (short : data.length ≤ 1) :=
      (Target.readFile_written consistent).mp (intact data _
        (consistent.writeFile_of_target target.one (clustersNeeded_of_length_le_one short))).1
    obtain ⟨e, found, bytes⟩ := reads [] (by decide)
    obtain ⟨e', found', bytes'⟩ := reads [0] (by decide)
    have ne : e ≠ e' := by
      rintro rfl
      cases Target.length_fileBytes bytes bytes'
    obtain ⟨front, old, back, -, before_place, replaced, -, before⟩ := target.one.exists_split
    rw [replaced, listed_append before, lookup_append] at found found'
    have unshadowed : lookup (splitPath path).2 false (listed front) = none := by
      cases first : lookup (splitPath path).2 false (listed front) with
      | none => rfl
      | some shadow =>
        rw [first, some_or] at found found'
        exact absurd (some.inj (found.symm.trans found')) ne
    rw [unshadowed, none_or] at found found'
    refine ⟨?_, fun dir raw slot foundDir read place => ?_⟩
    · by_contra illegible
      obtain ⟨result, constant⟩ := lookup_fileEntry_of_not_legible back illegible
      exact ne (some.inj (found.symm.trans
        ((constant ..).trans ((constant ..).symm.trans found'))))
    · obtain rfl := Except.ok.inj (target.found.symm.trans foundDir)
      obtain rfl := Except.ok.inj (target.read.symm.trans read)
      obtain rfl := some.inj (target.place.symm.trans place)
      rw [← unshadowed, ← before_place]
      rfl
  · rintro recoverable data vol' ok
    obtain ⟨target, rfl⟩ := consistent.writeFile_eq_ok_iff.mp ok
    exact recoverable.readsBack consistent noDirectory target

end Volume

/-! ## A small volume -/

def longfileTxt : FilePath := ['l', 'o', 'n', 'g', 'f', 'i', 'l', 'e', '.', 't', 'x', 't']

def longfilesTxt : FilePath := ['l', 'o', 'n', 'g', 'f', 'i', 'l', 'e', 's', '.', 't', 'x', 't']

/-- A volume with one sector in a cluster and the file `longfile.txt` in its root. -/
def sampleVolume : Volume where
  fs := {
    bpb := ⟨512, 1, 1, 1, 1, 2⟩
    fatCache := [fat32Eoc, fat32Eoc, fat32Eoc, fat32Eoc] ++ replicate 124 0
    cluster_ne_zero := by decide
    cache_length := by decide +kernel }
  disk := {
    capacity := 16
    sectors := fun lba =>
      if lba = 2 then sectorOf (entryBytes (toShortName longfileTxt) 3 2) 0
      else if lba = 3 then sectorOf [1, 2] 0
      else sectorOf [] 0 }

theorem readDirEntries_sampleVolume : sampleVolume.readDirEntries 2 =
    .ok [(longfileTxt, fileEntry (toShortName longfileTxt) 3 2)] :=
  toOption_eq_some_iff.mp (by decide +kernel)

theorem isDirectory_sampleVolume (known : sampleVolume.IsDirectory c) : c = 2 := by
  induction known with
  | root => rfl
  | entry _ listing mem directory _ ih =>
    subst ih
    obtain rfl := ok.inj (readDirEntries_sampleVolume.symm.trans listing)
    rw [mem_singleton.mp mem] at directory
    cases directory

/-- The root and the file have one cluster each. -/
theorem owns_sampleVolume (owned : sampleVolume.Owns o start) :
    (o = .root ∧ start = 2) ∨ (o = .entry 2 0 ∧ start = 3) := by
  cases owned with
  | root => exact .inl ⟨rfl, rfl⟩
  | @entry _ _ _ i _ known listing at_i _ first =>
    obtain rfl := isDirectory_sampleVolume known
    obtain rfl := ok.inj (readDirEntries_sampleVolume.symm.trans listing)
    cases i with
    | zero =>
      obtain rfl := some.inj at_i
      exact .inr ⟨rfl, first.symm⟩
    | succ i => cases at_i

theorem consistent_sampleVolume : sampleVolume.Consistent := by
  have ends : ∀ {start c : UInt32}, sampleVolume.fs.nextCluster start = none →
      Reaches sampleVolume.fs.nextCluster start c → c = start := by
    intro start c none reached
    have linked : Linked sampleVolume.fs.nextCluster [start] := none
    exact mem_singleton.mp (linked.mem_of_reaches reached)
  have two : sampleVolume.fs.nextCluster 2 = none := by decide +kernel
  have three : sampleVolume.fs.nextCluster 3 = none := by decide +kernel
  refine ⟨by decide, fun owned reached => ?_, fun owned owned' reached reached' => ?_⟩
  · rcases owns_sampleVolume owned with ⟨-, rfl⟩ | ⟨-, rfl⟩
    · rw [ends two reached]
      decide +kernel
    · rw [ends three reached]
      decide +kernel
  · rcases owns_sampleVolume owned with ⟨rfl, rfl⟩ | ⟨rfl, rfl⟩ <;>
      rcases owns_sampleVolume owned' with ⟨rfl, rfl⟩ | ⟨rfl, rfl⟩
    · rfl
    · exact absurd ((ends two reached).symm.trans (ends three reached')) (by decide)
    · exact absurd ((ends three reached).symm.trans (ends two reached')) (by decide)
    · rfl

/-- The volume after a write, if that succeeds. -/
def afterWrite (path : FilePath) (data : List UInt8) (vol : Volume) : Option Volume :=
  match writeFile path data vol with
  | .ok _ vol' => some vol'
  | .error _ _ => none

theorem afterWrite_eq_some {path : FilePath} {data : List UInt8} {vol vol' : Volume}
    (ok : afterWrite path data vol = some vol') : writeFile path data vol = .ok () vol' := by
  rw [afterWrite] at ok
  split at ok
  next result =>
    obtain rfl := some.inj ok
    exact result
  · cases ok

theorem noDirectory_sampleVolume (name : FilePath) (root : dirParts name = []) :
    sampleVolume.NoDirectory name := by
  intro dir entries found listing
  rw [Volume.dirCluster_eq, root] at found
  obtain rfl : (2 : UInt32) = dir := ok.inj found
  obtain rfl := ok.inj (readDirEntries_sampleVolume.symm.trans listing)
  rw [lookup_cons, if_neg fun reads => by rw [(kind_fileEntry ..).2.2] at reads; cases reads.2]
  rfl

/-- A file `a` is written next to `longfile.txt` and read back. -/
theorem writeFile_readsBack_short : (∃ data vol', writeFile ['a'] data sampleVolume = .ok () vol') ∧
    ∀ data vol', writeFile ['a'] data sampleVolume = .ok () vol' →
      sampleVolume.ReadsBack vol' ['a'] data := by
  have possible : ∃ data vol', writeFile ['a'] data sampleVolume = .ok () vol' := by
    obtain ⟨vol', ok⟩ := isSome_iff_exists.mp
      (by decide +kernel : (afterWrite ['a'] [7] sampleVolume).isSome)
    exact ⟨[7], vol', afterWrite_eq_some ok⟩
  refine ⟨possible, (Volume.writeFile_readsBack_iff consistent_sampleVolume
    (noDirectory_sampleVolume _ rfl) possible).mpr ⟨by decide +kernel, ?_⟩⟩
  intro dir raw slot found read place
  have free : ((sampleVolume.dirCluster ['a']).toOption.bind fun dir =>
      (sampleVolume.readChain dir).toOption.bind fun raw =>
        (findSlot (toShortName ['a']) (dirSlots raw) 0 none).map fun slot =>
          lookup ['a'] false (listed ((dirSlots raw).take slot))) = some none := by
    decide +kernel
  rw [found, Except.toOption, bind_some, read, Except.toOption, bind_some] at free
  have shown : findSlot (toShortName ['a']) (dirSlots raw) 0 none = some slot := place
  rw [shown] at free
  exact some.inj free

/-- A file `longfiles.txt` gets the entry of `longfile.txt`: it is not found under its own name, and
the other file has its data. -/
theorem writeFile_long_name_overwrites : sampleVolume.Consistent ∧
    sampleVolume.NoDirectory longfilesTxt ∧ ¬SamePath longfileTxt longfilesTxt ∧
    sampleVolume.readFile longfileTxt = .ok [1, 2] ∧
    ∃ vol', writeFile longfilesTxt [7] sampleVolume = .ok () vol' ∧
      vol'.readFile longfilesTxt ≠ .ok [7] ∧ vol'.readFile longfileTxt = .ok [7] := by
  refine ⟨consistent_sampleVolume, noDirectory_sampleVolume _ (by decide +kernel), ?_,
    toOption_eq_some_iff.mp (by decide +kernel), ?_⟩
  · rw [SamePath]
    decide +kernel
  have run : (afterWrite longfilesTxt [7] sampleVolume).map (fun vol' =>
      ((vol'.readFile longfilesTxt).toOption, (vol'.readFile longfileTxt).toOption)) =
        some (none, some [7]) := by
    decide +kernel
  obtain ⟨vol', ok, reads⟩ := map_eq_some_iff.mp run
  obtain ⟨lost, changed⟩ := Prod.ext_iff.mp reads
  refine ⟨vol', afterWrite_eq_some ok, fun found => ?_, toOption_eq_some_iff.mp changed⟩
  rw [toOption_eq_some_iff.mpr found] at lost
  cases lost

end SmartOs.Drivers.Fat32
