/-
# The invariant of the disk file system

Abstractly the file system is a map from names to bytes: each active entry is a file, and its
contents are the sectors of its extent. `Sound` says that extents, bitmap and entries agree, and
that the start of the disk is the image of what is in memory. A file that goes and a file that
is added keep it so, and change the map at its name only.
-/

import SmartOs.Drivers.DiskFs

namespace SmartOs.Drivers

open CS Math SmartPack List Function

variable {v' : ℕ → Sector} {d : List UInt8} {e : FileEntry} {fs' fs : DiskFs}

/-! ## Records -/

theorem uint32_ofNat_ofLeBytes (v : UInt32) :
    UInt32.ofNat (ofLeBytes (toLeBytes 4 v.toNat)) = v := by
  rw [ofLeBytes_toLeBytes_of_lt (by simpa using v.toNat_lt), UInt32.ofNat_toNat]

theorem uint64_ofNat_ofLeBytes (v : UInt64) :
    UInt64.ofNat (ofLeBytes (toLeBytes 8 v.toNat)) = v := by
  rw [ofLeBytes_toLeBytes_of_lt (by simpa using v.toNat_lt), UInt64.ofNat_toNat]

theorem Superblock.ofSector_toSector (sb : Superblock) : ofSector sb.toSector = sb := by
  simp only [ofSector, toSector, field_append, field_zero_append, toLeBytes_length,
    uint32_ofNat_ofLeBytes, Nat.reduceLeDiff, Nat.reduceSub]

theorem FileEntry.ofSector_toSector (e : FileEntry) : ofSector e.toSector = e := by
  obtain ⟨⟨name, length⟩, flags, size, start, count, ⟨reserved, lengthReserved⟩⟩ := e
  have nameLength : name.length = 120 := length
  have last : field 0 360 reserved = reserved := by
    rw [field, drop_zero, take_of_length_le lengthReserved.le]
  simp only [ofSector, toSector, field_append, field_zero_append, toLeBytes_length, nameLength,
    length_replicate, uint32_ofNat_ofLeBytes, uint64_ofNat_ofLeBytes, Nat.reduceLeDiff,
    Nat.reduceSub, last]

/-! ## Sectors of a byte string -/

theorem val_sectorOf (data : List UInt8) (i : ℕ) : (sectorOf data i).val =
    (data.drop (i * sectorSize)).take sectorSize ++
      replicate (sectorSize - (data.length - i * sectorSize)) 0 := by
  have filled : sectorSize - ((data.drop (i * sectorSize)).take sectorSize).length =
      sectorSize - (data.length - i * sectorSize) := by
    rw [length_take, length_drop]
    omega
  rw [← filled]
  rfl

theorem flatMap_sectorOf (data : List UInt8) (n : ℕ) :
    ((range n).flatMap fun i => (sectorOf data i).val) =
      data.take (n * sectorSize) ++ replicate (n * sectorSize - data.length) 0 := by
  induction n with
  | zero => simp
  | succ n ih =>
    rw [range_succ, flatMap_append, ih, flatMap_singleton, val_sectorOf, Nat.succ_mul]
    rcases Nat.le_total (n * sectorSize) data.length with more | done
    · rw [Nat.sub_eq_zero_of_le more, replicate_zero, append_nil, ← append_assoc, ← take_add]
      congr 2
      omega
    · rw [drop_eq_nil_of_le done, take_nil, nil_append, append_assoc,
        replicate_append_replicate, take_of_length_le done, take_of_length_le (by omega)]
      congr 2
      omega

/-! ## The table of files -/

def FileEntry.extent (e : FileEntry) : Set ℕ :=
  Set.Ico e.startSector.toNat (e.startSector.toNat + e.sectorCount.toNat)

variable {slot : ℕ}

namespace DiskFs

/-- The file in a slot. -/
def table (fs : DiskFs) (slot : ℕ) : Option FileEntry :=
  fs.entries[slot]?.filter FileEntry.isActive

/-- The sectors that the bitmap marks. -/
def used (fs : DiskFs) : Set ℕ := { s | testBit fs.bitmap s }

/-- The start of the disk that belongs to what is in memory. -/
def image (fs : DiskFs) (lba : ℕ) : Sector :=
  if lba = 0 then fs.superblock.toSector
  else if lba < entryStart then sectorOf (bitmapBytes fs.bitmap) (lba - bitmapStart)
  else (fs.entries.getD (lba - entryStart) FileEntry.zeroed).toSector

theorem table_eq_some_iff : fs.table slot = some e ↔ fs.entries[slot]? = some e ∧ e.isActive := by
  rw [table, Option.filter_eq_some_iff]

theorem slot_lt (found : fs.table slot = some e) : slot < maxFiles := by
  obtain ⟨inside, -⟩ := List.getElem?_eq_some_iff.mp (table_eq_some_iff.mp found).1
  rwa [fs.length_entries] at inside

theorem table_setEntry (fs : DiskFs) (inside : slot < maxFiles) (e : FileEntry) :
    (fs.setEntry slot e).table = update fs.table slot (if e.isActive then some e else none) := by
  funext other
  by_cases same : other = slot
  · subst same
    rw [update_self, table, setEntry, getElem?_set_self (by rwa [fs.length_entries])]
    rfl
  · rw [update_of_ne same, table, setEntry, getElem?_set_ne (Ne.symm same), table]

end DiskFs

/-- Byte `j` of a file of which some sectors are read. -/
def byteAt (v : ℕ → Sector) (e : FileEntry) (rounds j : ℕ) : UInt8 :=
  if j < rounds * sectorSize then
    (v ((e.startSector.toNat + j / sectorSize) % 2 ^ 64)).val.getD (j % sectorSize) 0
  else 0

/-- What is stored in the sectors of an entry. -/
def content (view : ℕ → Sector) (e : FileEntry) : List UInt8 :=
  (range e.size.toNat).map (byteAt view e e.sectorCount.toNat)

/-- The sectors that bytes of the file are read from. -/
def FileEntry.occupied (e : FileEntry) : Set ℕ :=
  { lba | ∃ i < e.sectorCount.toNat, i * sectorSize < e.size.toNat ∧
    lba = (e.startSector.toNat + i) % 2 ^ 64 }

theorem content_congr {v w : ℕ → Sector} (same : ∀ lba ∈ e.occupied, w lba = v lba) :
    content w e = content v e := by
  refine map_congr_left fun j within => ?_
  have bound := mem_range.mp within
  rw [byteAt, byteAt]
  split
  · rename_i stored
    have before : j / sectorSize * sectorSize ≤ j := Nat.div_mul_le_self ..
    rw [same _ ⟨j / sectorSize, Nat.div_lt_of_lt_mul (by rwa [mul_comm]), by omega, rfl⟩]
  · rfl

/-- The entry that a name stands for. -/
def DiskFs.lookup (fs : DiskFs) (name : String) : Option FileEntry :=
  fs.entries.find? (·.named name)

/-- The file system as a map. -/
def DiskFs.files (fs : DiskFs) (view : ℕ → Sector) (name : String) : Option (List UInt8) :=
  (fs.lookup name).map (content view)

/-- Memory and disk agree, and so do the files and the bitmap. -/
structure Sound (fs : DiskFs) (view : ℕ → Sector) : Prop where
  total_le : fs.totalSectors ≤ bitmapBits
  laid : Laid FileEntry.extent (Set.Ico dataStart fs.totalSectors) (Set.Iio dataStart) fs.table
    fs.used
  sized : ∀ {slot e}, fs.table slot = some e →
    e.sectorCount.toNat = max (sectorsNeeded e.size.toNat) 1
  names : ∀ {i j e f}, fs.table i = some e → fs.table j = some f → e.nameStr = f.nameStr → i = j
  image : ∀ lba < dataStart, view lba = fs.image lba

namespace Sound

variable {v : ℕ → Sector} {name : String} (sound : Sound fs v)
include sound

theorem lookup_eq_some_iff : fs.lookup name = some e ↔
    ∃ slot, fs.table slot = some e ∧ e.nameStr = name := by
  have of_find {f : FileEntry} (found : fs.lookup name = some f) :
      ∃ slot, fs.table slot = some f ∧ f.nameStr = name := by
    have named := find?_some found
    rw [FileEntry.named, Bool.and_eq_true, beq_iff_eq] at named
    obtain ⟨slot, place⟩ := mem_iff_getElem?.mp (mem_of_find?_eq_some found)
    exact ⟨slot, DiskFs.table_eq_some_iff.mpr ⟨place, named.1⟩, named.2⟩
  refine ⟨of_find, ?_⟩
  rintro ⟨slot, found, rfl⟩
  obtain ⟨place, active⟩ := DiskFs.table_eq_some_iff.mp found
  -- the search finds some file of the name, and there is only one
  cases search : fs.lookup e.nameStr with
  | none =>
    have notNamed := find?_eq_none.mp search e (mem_of_getElem? place)
    simp [FileEntry.named, active] at notNamed
  | some f =>
    obtain ⟨other, foundF, same⟩ := of_find search
    rw [sound.names found foundF same.symm] at found
    exact foundF.symm.trans found

theorem files_eq_some_iff : fs.files v name = some d ↔
    ∃ slot e, fs.table slot = some e ∧ e.nameStr = name ∧ content v e = d := by
  rw [DiskFs.files, Option.map_eq_some_iff]
  constructor
  · rintro ⟨e, search, rfl⟩
    obtain ⟨slot, found, named⟩ := sound.lookup_eq_some_iff.mp search
    exact ⟨slot, e, found, named, rfl⟩
  · rintro ⟨slot, e, found, named, rfl⟩
    exact ⟨e, sound.lookup_eq_some_iff.mpr ⟨slot, found, named⟩, rfl⟩

theorem extent_le (found : fs.table slot = some e) :
    e.startSector.toNat + e.sectorCount.toNat ≤ fs.totalSectors := by
  have last : e.startSector.toNat + e.sectorCount.toNat - 1 ∈ e.extent := by
    have := sound.sized found
    exact ⟨by omega, by omega⟩
  have bound := (sound.laid.inside found last).2
  omega

theorem occupied_subset (found : fs.table slot = some e) : e.occupied ⊆ e.extent := by
  rintro lba ⟨i, inside, -, rfl⟩
  have bound := (sound.extent_le found).trans sound.total_le
  have bits : bitmapBits = 16384 := rfl
  rw [Nat.mod_eq_of_lt (by omega)]
  exact ⟨by omega, by omega⟩

/-- One slot gets a new entry, or none, and the files of the other slots are as before. -/
theorem put (new : Option FileEntry) (total : fs'.totalSectors = fs.totalSectors)
    (table : fs'.table = update fs.table slot new)
    (laid : Laid FileEntry.extent (Set.Ico dataStart fs.totalSectors) (Set.Iio dataStart) fs'.table
      fs'.used)
    (image : ∀ lba < dataStart, v' lba = fs'.image lba)
    (old : ∀ e, fs.table slot = some e → e.nameStr = name)
    (others : ∀ {i f}, i ≠ slot → fs.table i = some f →
      f.nameStr ≠ name ∧ content v' f = content v f)
    (entry : ∀ e, new = some e →
      e.nameStr = name ∧ e.sectorCount.toNat = max (sectorsNeeded e.size.toNat) 1) :
    Sound fs' v' ∧ fs'.files v' = update (fs.files v) name (new.map (content v')) := by
  have cases_of {i : ℕ} {f : FileEntry} (kept : fs'.table i = some f) :
      i = slot ∧ new = some f ∨ i ≠ slot ∧ fs.table i = some f := by
    rw [table] at kept
    exact update_eq_some_iff.mp kept
  have sound' : Sound fs' v' := by
    refine ⟨total ▸ sound.total_le, total ▸ laid, fun kept => ?_, fun keptI keptJ same => ?_,
      image⟩
    · rcases cases_of kept with ⟨-, new⟩ | ⟨-, old⟩
      · exact (entry _ new).2
      · exact sound.sized old
    rcases cases_of keptI with ⟨rfl, newI⟩ | ⟨otherI, oldI⟩ <;>
      rcases cases_of keptJ with ⟨rfl, newJ⟩ | ⟨otherJ, oldJ⟩
    · rfl
    · exact absurd (same.symm.trans (entry _ newI).1) (others otherJ oldJ).1
    · exact absurd (same.trans (entry _ newJ).1) (others otherI oldI).1
    · exact sound.names oldI oldJ same
  refine ⟨sound', funext fun name' => Option.ext fun d => ?_⟩
  rw [sound'.files_eq_some_iff, update_eq_some_iff, sound.files_eq_some_iff, Option.map_eq_some_iff]
  constructor
  · rintro ⟨i, f, kept, rfl, rfl⟩
    rcases cases_of kept with ⟨-, new⟩ | ⟨other, old⟩
    · exact .inl ⟨(entry f new).1, f, new, rfl⟩
    · obtain ⟨unnamed, frame⟩ := others other old
      exact .inr ⟨unnamed, i, f, old, rfl, frame.symm⟩
  rintro (⟨rfl, f, new, rfl⟩ | ⟨ne, i, f, found, rfl, rfl⟩)
  · exact ⟨slot, f, by rw [table, update_self, new], (entry f new).1, rfl⟩
  have other : i ≠ slot := by
    rintro rfl
    exact ne (old f found)
  exact ⟨i, f, by rw [table, update_of_ne other, found], rfl, (others other found).2⟩

theorem remove (found : fs.table slot = some e) (total : fs'.totalSectors = fs.totalSectors)
    (table : fs'.table = update fs.table slot none) (used : fs'.used = fs.used \ e.extent)
    (image : ∀ lba < dataStart, v' lba = fs'.image lba)
    (same : ∀ lba, dataStart ≤ lba → v' lba = v lba) :
    Sound fs' v' ∧ fs'.files v' = update (fs.files v) e.nameStr none := by
  have apart : Disjoint (Set.Ico dataStart fs.totalSectors) (Set.Iio dataStart) :=
    Set.disjoint_left.mpr fun s inside before => not_lt.mpr inside.1 before
  refine sound.put none total table ?_ image (fun f here => ?_) (fun other foundF => ⟨?_, ?_⟩)
    (by simp)
  · rw [table, used]
    exact sound.laid.remove apart found
  · rw [Option.some.inj (found.symm.trans here)]
  · exact fun sameName => other (sound.names foundF found sameName)
  · exact content_congr fun lba mem =>
      same lba (sound.laid.inside foundF (sound.occupied_subset foundF mem)).1

theorem add (vacant : fs.table slot = none) (fresh : fs.files v e.nameStr = none)
    (total : fs'.totalSectors = fs.totalSectors) (table : fs'.table = update fs.table slot (some e))
    (used : fs'.used = fs.used ∪ e.extent) (inside : e.extent ⊆ Set.Ico dataStart fs.totalSectors)
    (free : Disjoint e.extent fs.used)
    (size : e.sectorCount.toNat = max (sectorsNeeded e.size.toNat) 1)
    (image : ∀ lba < dataStart, v' lba = fs'.image lba)
    (same : ∀ lba, dataStart ≤ lba → lba ∉ e.extent → v' lba = v lba) (stored : content v' e = d) :
    Sound fs' v' ∧ fs'.files v' = update (fs.files v) e.nameStr (some d) := by
  subst stored
  refine sound.put (some e) total table ?_ image (by simp [vacant])
    (fun {i f} _ foundF => ⟨fun sameName => ?_, ?_⟩) fun f here => ?_
  · rw [table, used]
    exact sound.laid.insert vacant inside free
  · have file := sound.files_eq_some_iff.mpr ⟨i, f, foundF, sameName, rfl⟩
    cases fresh.symm.trans file
  · -- the new extent is apart from the old ones
    refine content_congr fun lba read => ?_
    have mem := sound.occupied_subset foundF read
    exact same lba (sound.laid.inside foundF mem).1 fun new =>
      Set.disjoint_left.mp free new (sound.laid.used_iff.mpr (.inr ⟨i, f, foundF, mem⟩))
  · cases here
    exact ⟨rfl, size⟩

end Sound

end SmartOs.Drivers
