/-
# Volumes as trees of chains

What a FAT32 volume holds: the chains of its directories and files. A consistent volume has no
cluster in two of them, and none of their clusters is free. Then a directory is reached by one
path only, up to the case of letters, and what is read from a chain depends on the sectors and
the table entries of that chain alone.
-/

import SmartOs.CS.Chain
import SmartOs.Drivers.Fat32

namespace SmartOs.Drivers.Fat32

open CS Math Vfs List Disk Except Nat

variable {clusters : List UInt32} {bytes : List UInt8} {cluster dir : UInt32}

/-! ## Sectors -/

/-- The bytes of sectors one after another. -/
def Disk.contents (disk : Disk) (lbas : List ℕ) : List UInt8 :=
  lbas.flatMap fun lba => (disk.sectors lba).val

theorem length_contents (disk : Disk) (lbas : List ℕ) :
    (disk.contents lbas).length = lbas.length * sectorSize := by
  have widths : (fun lba => (disk.sectors lba).val.length) = fun _ => sectorSize :=
    funext fun lba => (disk.sectors lba).property
  rw [contents, length_flatMap, widths, map_const', sum_replicate_nat]

variable {disk disk' : Disk}

theorem contents_congr {lbas : List ℕ} (same : ∀ lba ∈ lbas, disk'.sectors lba = disk.sectors lba) :
    disk'.contents lbas = disk.contents lbas :=
  flatMap_congr fun lba mem => by rw [same lba mem]

variable {lba : ℕ}

theorem readSector_eq_ok_iff {sec : Sector} :
    readSector disk lba = .ok sec ↔ lba < disk.capacity ∧ disk.sectors lba = sec := by
  unfold readSector
  split
  next inside => simp [inside]
  next outside => simp [outside]

theorem readRun_eq_ok_iff {base count : ℕ} : readRun disk base count = .ok bytes ↔
      (∀ lba ∈ range' base count, lba < disk.capacity) ∧
        disk.contents (range' base count) = bytes := by
  induction count generalizing base bytes with
  | zero => simp [readRun, contents]
  | succ count ih =>
    rw [readRun, except_bind_eq_ok_iff, range'_succ, forall_mem_cons]
    constructor
    · rintro ⟨sec, first, rest⟩
      obtain ⟨rest, others, result⟩ := except_bind_eq_ok_iff.mp rest
      obtain ⟨inside, rfl⟩ := readSector_eq_ok_iff.mp first
      obtain ⟨insides, rfl⟩ := ih.mp others
      exact ⟨⟨inside, insides⟩, ok.inj result⟩
    · rintro ⟨⟨inside, insides⟩, rfl⟩
      exact ⟨_, readSector_eq_ok_iff.mpr ⟨inside, rfl⟩,
        except_bind_eq_ok_iff.mpr ⟨_, ih.mpr ⟨insides, rfl⟩, rfl⟩⟩

theorem readRun_congr (capacity : disk'.capacity = disk.capacity) {base count : ℕ}
    (same : ∀ lba ∈ range' base count, disk'.sectors lba = disk.sectors lba) :
    readRun disk' base count = readRun disk base count := by
  induction count generalizing base with
  | zero => rfl
  | succ count ih =>
    rw [range'_succ, forall_mem_cons] at same
    rw [readRun, readRun, ih same.2, readSector, readSector, same.1, capacity]

/-! ## Chains -/

namespace Fat32Fs

variable (fs : Fat32Fs)

def sectorsOf (cluster : UInt32) : List ℕ := range' (fs.clusterToSector cluster) fs.spc

/-- The sectors of clusters one after another. -/
def sectorsOfAll (clusters : List UInt32) : List ℕ := clusters.flatMap fs.sectorsOf

variable {fs}

theorem spc_pos : 0 < fs.spc := by
  have : fs.bpb.sectorsPerCluster.toNat ≠ 0 := fun zero =>
    fs.cluster_ne_zero (UInt8.toNat_inj.mp zero)
  exact pos_of_ne_zero this

theorem mem_sectorsOf : lba ∈ fs.sectorsOf cluster ↔
    fs.clusterToSector cluster ≤ lba ∧ lba < fs.clusterToSector cluster + fs.spc :=
  mem_range'_1

/-- Clusters have no sector in common, whatever their numbers are. -/
theorem eq_of_mem_sectorsOf {c d : UInt32} (mem : lba ∈ fs.sectorsOf c)
    (mem' : lba ∈ fs.sectorsOf d) : c = d := by
  rw [mem_sectorsOf] at mem mem'
  have number : ∀ {n : ℕ}, fs.bpb.dataStartSector + n * fs.spc ≤ lba →
      lba < fs.bpb.dataStartSector + n * fs.spc + fs.spc →
      n = (lba - fs.bpb.dataStartSector) / fs.spc := by
    intro n low high
    refine (Nat.div_eq_of_lt_le (by omega) ?_).symm
    rw [Nat.succ_mul]
    omega
  have same := (number mem.1 mem.2).trans (number mem'.1 mem'.2).symm
  exact (UInt32.sub_left_inj 2).mp (UInt32.toNat_inj.mp same)

theorem nodup_sectorsOfAll (distinct : clusters.Nodup) : (fs.sectorsOfAll clusters).Nodup := by
  refine nodup_flatMap.mpr ⟨fun c _ => nodup_range', ?_⟩
  refine distinct.imp fun ne lba mem mem' => ?_
  exact ne (eq_of_mem_sectorsOf mem mem')

theorem length_sectorsOfAll (clusters : List UInt32) :
    (fs.sectorsOfAll clusters).length = clusters.length * fs.spc := by
  have widths : (fun c => (fs.sectorsOf c).length) = fun _ => fs.spc :=
    funext fun c => length_range'
  rw [sectorsOfAll, length_flatMap, widths, map_const', sum_replicate_nat]

/-- Sector `i` of a chain is in its cluster `i / spc`. -/
theorem getElem?_sectorsOfAll {i : ℕ}
    (at_i : clusters[i / fs.spc]? = some cluster) :
    (fs.sectorsOfAll clusters)[i]? = some (fs.clusterToSector cluster + i % fs.spc) := by
  induction clusters generalizing i with
  | nil => cases at_i
  | cons first clusters ih =>
    rw [sectorsOfAll, flatMap_cons]
    have width : (fs.sectorsOf first).length = fs.spc := length_range'
    rcases lt_or_ge i fs.spc with inside | behind
    · rw [div_eq_of_lt inside] at at_i
      cases at_i
      rw [getElem?_append_left (by rwa [width]), mod_eq_of_lt inside, sectorsOf,
        getElem?_range' inside, one_mul]
    · rw [div_eq_sub_div spc_pos behind] at at_i
      rw [getElem?_append_right (by rwa [width]), width, mod_eq_sub_mod behind]
      exact ih at_i

theorem readChainFrom_eq_ok_iff {left : ℕ} {c : UInt32} {raw : List UInt8} :
    fs.readChainFrom disk left c = .ok raw ↔ ∃ rest, Linked fs.nextCluster (c :: rest) ∧
      rest.length ≤ left ∧ (∀ lba ∈ fs.sectorsOfAll (c :: rest), lba < disk.capacity) ∧
      disk.contents (fs.sectorsOfAll (c :: rest)) = raw := by
  have single : fs.sectorsOfAll [c] = fs.sectorsOf c := by
    rw [sectorsOfAll, flatMap_singleton]
  have joined (rest : List UInt32) :
      fs.sectorsOfAll (c :: rest) = fs.sectorsOf c ++ fs.sectorsOfAll rest := flatMap_cons
  cases follows : fs.nextCluster c with
  | none =>
    have alone : fs.readChainFrom disk left c = readRun disk (fs.clusterToSector c) fs.spc := by
      cases left <;> simp only [readChainFrom, follows] <;> exact bind_pure _
    rw [alone, readRun_eq_ok_iff]
    constructor
    · rintro ⟨insides, rfl⟩
      exact ⟨[], follows, zero_le _, by rwa [single], by rw [single]; rfl⟩
    rintro ⟨rest, linked, -, insides, rfl⟩
    have ends := (linked_cons_iff.mp linked).1.symm.trans follows
    rw [head?_eq_none_iff.mp ends, single] at insides ⊢
    exact ⟨insides, rfl⟩
  | some next =>
    cases left with
    | zero =>
      refine iff_of_false (fun ok => ?_) ?_
      · obtain ⟨buf, -, rest⟩ := except_bind_eq_ok_iff.mp ok
        rw [follows] at rest
        cases rest
      · rintro ⟨rest, linked, short, -⟩
        obtain rfl : rest = [] := length_eq_zero_iff.mp (le_zero.mp short)
        exact nomatch follows.symm.trans linked
    | succ left =>
      rw [readChainFrom, except_bind_eq_ok_iff, follows]
      constructor
      · rintro ⟨buf, first, rest⟩
        obtain ⟨insides, rfl⟩ := readRun_eq_ok_iff.mp first
        obtain ⟨bytes, others, result⟩ := except_bind_eq_ok_iff.mp rest
        obtain ⟨tail, linked, short, inside, rfl⟩ := readChainFrom_eq_ok_iff.mp others
        refine ⟨next :: tail, ⟨follows, linked⟩, succ_le_succ short, ?_, ?_⟩
        · rw [joined, forall_mem_append]
          exact ⟨insides, inside⟩
        · rw [joined, contents, flatMap_append]
          exact ok.inj result
      · rintro ⟨rest, linked, short, insides, rfl⟩
        have starts := (linked_cons_iff.mp linked).1.symm.trans follows
        obtain ⟨tail, rfl⟩ := head?_eq_some_iff.mp starts
        rw [joined, forall_mem_append] at insides
        refine ⟨_, readRun_eq_ok_iff.mpr ⟨insides.1, rfl⟩, ?_⟩
        refine except_bind_eq_ok_iff.mpr ⟨_, readChainFrom_eq_ok_iff.mpr
          ⟨tail, linked.2, le_of_succ_le_succ short, insides.2, rfl⟩, ?_⟩
        rw [joined, contents, contents, contents, flatMap_append]
        rfl

theorem readChainFrom_congr {fs' : Fat32Fs} (bpb : fs'.bpb = fs.bpb)
    (capacity : disk'.capacity = disk.capacity) {left : ℕ} {c : UInt32}
    (same : ∀ d, Reaches fs.nextCluster c d → fs'.nextCluster d = fs.nextCluster d ∧ ∀ lba ∈
      fs.sectorsOf d, disk'.sectors lba = disk.sectors lba) :
    fs'.readChainFrom disk' left c = fs.readChainFrom disk left c := by
  have place : fs'.clusterToSector c = fs.clusterToSector c := by
    rw [clusterToSector, clusterToSector, spc, spc, bpb]
  have width : fs'.spc = fs.spc := by rw [spc, spc, bpb]
  obtain ⟨follows, sectors⟩ := same c .refl
  have first := readRun_congr capacity sectors
  induction left generalizing c with
  | zero => rw [readChainFrom, readChainFrom, place, width, first, follows]
  | succ left ih =>
    rw [readChainFrom, readChainFrom, place, width, first, follows]
    cases next : fs.nextCluster c with
    | none => rfl
    | some d =>
      have further : ∀ e, Reaches fs.nextCluster d e → _ := fun e reached =>
        same e (.head next reached)
      have rest := ih further (by rw [clusterToSector, clusterToSector, width, bpb])
        (further d .refl).1 (further d .refl).2 (readRun_congr capacity (further d .refl).2)
      simp [rest]

end Fat32Fs

/-! ## Volumes that agree -/

namespace Volume

def SameLayout (vol vol' : Volume) : Prop :=
  vol'.fs.bpb = vol.fs.bpb ∧ vol'.disk.capacity = vol.disk.capacity

/-- The volumes have the same link and the same bytes in a cluster. -/
def AgreeOn (vol vol' : Volume) (c : UInt32) : Prop :=
  vol'.fs.nextCluster c = vol.fs.nextCluster c ∧
    ∀ lba ∈ vol.fs.sectorsOf c, vol'.disk.sectors lba = vol.disk.sectors lba

theorem readChain_congr {vol vol' : Volume} (layout : vol.SameLayout vol') {c : UInt32}
    (agree : ∀ d, Reaches vol.fs.nextCluster c d → vol.AgreeOn vol' d) :
    vol'.readChain c = vol.readChain c :=
  Fat32Fs.readChainFrom_congr layout.1 layout.2 agree

end Volume

/-! ## Consistent volumes -/

/-- A place that a chain of clusters hangs on: the root, or an entry of a directory by the number
of its first cluster and the position of the entry. -/
inductive Owner where
  | root
  | entry (dir : UInt32) (i : ℕ)

variable {part : FilePath}

namespace Volume

variable (vol : Volume)

/-- The directories of the volume by their first clusters. -/
inductive IsDirectory : UInt32 → Prop
  | root : IsDirectory vol.fs.bpb.rootCluster
  | entry {dir c : UInt32} {entries : List (FilePath × DirEntry)} {item : FilePath × DirEntry} :
      IsDirectory dir → vol.readDirEntries dir = .ok entries → item ∈ entries →
      item.2.isDirectory → item.2.startCluster = c → IsDirectory c

/-- The chains in use by their first clusters. An empty file may have no cluster. -/
inductive Owns : Owner → UInt32 → Prop
  | root : Owns .root vol.fs.bpb.rootCluster
  | entry {dir c : UInt32} {entries : List (FilePath × DirEntry)} {i : ℕ}
      {item : FilePath × DirEntry} :
      vol.IsDirectory dir → vol.readDirEntries dir = .ok entries → entries[i]? = some item →
      item.2.isDirectory ∨ 2 ≤ c → item.2.startCluster = c → Owns (.entry dir i) c

/-- The table lies in front of the data, chains in use are disjoint, and their clusters are not
free. -/
structure Consistent : Prop where
  table : vol.fs.bpb.numFats ≠ 0
  taken : ∀ {o start c}, vol.Owns o start → Reaches vol.fs.nextCluster start c →
    2 ≤ c ∧ vol.fs.fatCache[c.toNat]? ≠ some fat32Free
  disjoint : ∀ {o o' start start' c}, vol.Owns o start → vol.Owns o' start' →
    Reaches vol.fs.nextCluster start c → Reaches vol.fs.nextCluster start' c → o = o'

variable {vol}

theorem enter_eq_ok_iff {c : UInt32} : vol.enter dir part = .ok c ↔
    ∃ entries e, vol.readDirEntries dir = .ok entries ∧ lookup part true entries = some e ∧
      e.startCluster = c := by
  rw [enter, except_bind_eq_ok_iff]
  constructor
  · rintro ⟨entries, listing, result⟩
    cases found : lookup part true entries with
    | none => rw [found] at result; cases result
    | some e =>
      rw [found] at result
      exact ⟨entries, e, listing, found, ok.inj result⟩
  · rintro ⟨entries, e, listing, found, rfl⟩
    exact ⟨entries, listing, by rw [found]; rfl⟩

end Volume

theorem of_lookup_eq_some {target : FilePath} {directory : Bool} {e : DirEntry}
    {entries : List (FilePath × DirEntry)} (found : lookup target directory entries = some e) :
    ∃ (i : ℕ) (name : FilePath), entries[i]? = some (name, e) ∧
      toUppercaseSimple name = toUppercaseSimple target ∧ e.isDirectory = directory := by
  obtain ⟨⟨name, e⟩, first, rfl⟩ := Option.map_eq_some_iff.mp found
  obtain ⟨i, at_i⟩ := getElem?_of_mem (mem_of_find?_eq_some first)
  have reads := find?_some first
  rw [Bool.and_eq_true, decide_eq_true_iff, decide_eq_true_iff] at reads
  exact ⟨i, name, at_i, reads.1, reads.2⟩

/-! ## Paths -/

/-- The directories on a path. -/
def dirParts (path : FilePath) : List FilePath :=
  ((splitPath path).1.splitOn '/').filter (· ≠ [])

/-- The paths name one file: their components differ in the case of letters at most. -/
def SamePath (p q : FilePath) : Prop :=
  (dirParts p).map toUppercaseSimple = (dirParts q).map toUppercaseSimple ∧
    toUppercaseSimple (splitPath p).2 = toUppercaseSimple (splitPath q).2

namespace Volume

variable {vol : Volume}

theorem dirCluster_eq (path : FilePath) : vol.dirCluster path =
    (dirParts path).foldlM vol.enter vol.fs.bpb.rootCluster := by
  rw [dirCluster, dirParts]
  split
  next empty =>
    rw [empty]
    rfl
  next => rfl

theorem readFile_eq_ok_iff {path : FilePath} :
    vol.readFile path = .ok bytes ↔ ∃ dir entries e, vol.dirCluster path = .ok dir ∧
      vol.readDirEntries dir = .ok entries ∧ lookup (splitPath path).2 false entries = some e ∧
      vol.fileBytes e = .ok bytes := by
  rw [readFile, except_bind_eq_ok_iff]
  refine exists_congr fun dir => ?_
  rw [except_bind_eq_ok_iff]
  constructor
  · rintro ⟨found, entries, listing, result⟩
    cases reads : lookup (splitPath path).2 false entries with
    | none => rw [reads] at result; cases result
    | some e =>
      rw [reads] at result
      exact ⟨entries, e, found, listing, reads, result⟩
  · rintro ⟨entries, e, found, listing, reads, result⟩
    exact ⟨found, entries, listing, by rwa [reads]⟩

variable {parts : List FilePath} {c : UInt32}

theorem foldlM_enter_concat {start : UInt32} : (parts ++ [part]).foldlM vol.enter start = .ok c ↔
      ∃ dir, parts.foldlM vol.enter start = .ok dir ∧ vol.enter dir part = .ok c := by
  rw [foldlM_append, except_bind_eq_ok_iff]
  refine exists_congr fun dir => and_congr_right fun _ => ?_
  rw [foldlM_cons, except_bind_eq_ok_iff]
  constructor
  · rintro ⟨last, entered, ended⟩
    exact entered.trans ended
  · intro entered
    exact ⟨c, entered, rfl⟩

theorem isDirectory_of_enter (known : vol.IsDirectory dir)
    (entered : vol.enter dir part = .ok c) : vol.IsDirectory c := by
  obtain ⟨entries, e, listing, found, start⟩ := enter_eq_ok_iff.mp entered
  obtain ⟨i, name, at_i, -, directory⟩ := of_lookup_eq_some found
  exact .entry known listing (mem_of_getElem? at_i) directory start

theorem isDirectory_of_foldlM
    (reached : parts.foldlM vol.enter vol.fs.bpb.rootCluster = .ok c) : vol.IsDirectory c := by
  induction parts using reverseRecOn generalizing c with
  | nil =>
    rw [← ok.inj reached]
    exact .root
  | append_singleton parts part ih =>
    obtain ⟨dir, front, entered⟩ := foldlM_enter_concat.mp reached
    exact isDirectory_of_enter (ih front) entered

theorem IsDirectory.owned (known : vol.IsDirectory c) : ∃ o, vol.Owns o c := by
  cases known with
  | root => exact ⟨.root, .root⟩
  | entry parent listing mem directory start =>
    obtain ⟨i, at_i⟩ := getElem?_of_mem mem
    exact ⟨.entry _ i, .entry parent listing at_i (.inl directory) start⟩

/-- In a consistent volume one path leads to each directory. -/
theorem Consistent.dirParts_unique (consistent : vol.Consistent) {parts' : List FilePath}
    (reached : parts.foldlM vol.enter vol.fs.bpb.rootCluster = .ok c)
    (reached' : parts'.foldlM vol.enter vol.fs.bpb.rootCluster = .ok c) :
    parts.map toUppercaseSimple = parts'.map toUppercaseSimple := by
  -- The last steps of both paths go through the one entry that owns the directory.
  have step {parts : List FilePath} {part : FilePath} {c : UInt32}
      (reached : (parts ++ [part]).foldlM vol.enter vol.fs.bpb.rootCluster = .ok c) :
      ∃ dir entries i item, parts.foldlM vol.enter vol.fs.bpb.rootCluster = .ok dir ∧
        vol.readDirEntries dir = .ok entries ∧ entries[i]? = some item ∧
        toUppercaseSimple item.1 = toUppercaseSimple part ∧ vol.Owns (.entry dir i) c := by
    obtain ⟨dir, front, entered⟩ := foldlM_enter_concat.mp reached
    obtain ⟨entries, e, listing, found, start⟩ := enter_eq_ok_iff.mp entered
    obtain ⟨i, name, at_i, reads, directory⟩ := of_lookup_eq_some found
    exact ⟨dir, entries, i, (name, e), front, listing, at_i, reads,
      .entry (isDirectory_of_foldlM front) listing at_i (.inl directory) start⟩
  induction parts using reverseRecOn generalizing parts' c with
  | nil =>
    have top : vol.Owns .root c := ok.inj reached ▸ Owns.root
    cases parts' using reverseRecOn with
    | nil => rfl
    | append_singleton parts' part' =>
      obtain ⟨dir, entries, i, item, -, -, -, -, owned⟩ := step reached'
      cases consistent.disjoint top owned .refl .refl
  | append_singleton parts part ih =>
    obtain ⟨dir, entries, i, item, front, listing, at_i, reads, owned⟩ := step reached
    cases parts' using reverseRecOn with
    | nil =>
      have top : vol.Owns .root c := ok.inj reached' ▸ Owns.root
      cases consistent.disjoint top owned .refl .refl
    | append_singleton parts' part' =>
      obtain ⟨dir', entries', i', item', front', listing', at_i', reads', owned'⟩ := step reached'
      cases consistent.disjoint owned owned' .refl .refl
      cases listing.symm.trans listing'
      cases at_i.symm.trans at_i'
      rw [map_append, map_append, ih front front', map_singleton, map_singleton, ← reads, ← reads']

end Volume

end SmartOs.Drivers.Fat32
