/-
# Block devices

The sectors below the disk file system: `read_sector_internal` and `write_sector_internal` of
`drivers/diskfs.rs` with the encryption of whole sectors. The drivers themselves are parameters.
A read falls back on the next drive if the first one fails, a write does not.

A device that does not fail keeps what is written, and the two functions then read and write
one array of sectors, encrypted or not.
-/

import SmartOs.CS.StateError
import SmartOs.Math.LittleEndian

namespace SmartOs.Drivers

open CS Math Function List

abbrev Sector := Bytes 512

/-- What a driver offers, with the state `δ` of the device. -/
structure Device (δ : Type) where
  readBlock : ℕ → EStateM String δ Sector
  writeBlock : ℕ → Sector → EStateM String δ Unit

/-- The drives that are present, in the order NVMe, AHCI, IDE, VirtIO. The last one is used even
if it is missing, and then fails. -/
structure Drives (δ : Type) where
  first : δ
  others : List δ

/-! ## Encryption -/

structure EncryptionEngine where
  key : Bytes 32
  enabled : Bool

namespace EncryptionEngine

variable (engine : EncryptionEngine) (lba : ℕ)

def mask (i : ℕ) : UInt8 :=
  engine.key.val.getD (i % 32) 0 ^^^ (UInt8.ofNat lba + UInt8.ofNat i)

def encrypt (data : Sector) : Sector :=
  if engine.enabled then
    ⟨data.val.mapIdx fun i byte => byte ^^^ engine.mask lba i, by simp [data.property]⟩
  else data

def decrypt (data : Sector) : Sector :=
  if engine.enabled then
    ⟨data.val.mapIdx fun i byte => byte ^^^ engine.mask lba i, by simp [data.property]⟩
  else data

theorem decrypt_encrypt {data : Sector} : engine.decrypt lba (engine.encrypt lba data) = data := by
  rw [decrypt, encrypt]
  split
  · ext i byte
    simp only [List.mapIdx_mapIdx, List.getElem?_mapIdx, Option.map_eq_some_iff,
      Function.comp_apply, UInt8.xor_assoc, UInt8.xor_self, UInt8.xor_zero, exists_eq_right]
  · rfl

end EncryptionEngine

/-! ## Reading and writing -/

section Access

variable {δ : Type} (dev : Device δ) (engine : EncryptionEngine)

/-- Read from the first drive that can. -/
def readFrom (lba : ℕ) : δ → List δ → Except String Sector × Drives δ
  | d, [] =>
    match dev.readBlock lba d with
    | .ok buf d => (.ok buf, ⟨d, []⟩)
    | .error e d => (.error e, ⟨d, []⟩)
  | d, next :: others =>
    match dev.readBlock lba d with
    | .ok buf d => (.ok buf, ⟨d, next :: others⟩)
    | .error _ d =>
      let rest := readFrom lba next others
      (rest.1, ⟨d, rest.2.first :: rest.2.others⟩)

def readSectorInternal (lba : ℕ) : EStateM String (Drives δ) Sector := fun drives =>
  match readFrom dev lba drives.first drives.others with
  | (.ok buf, drives) => .ok (engine.decrypt lba buf) drives
  | (.error e, drives) => .error e drives

def writeSectorInternal (lba : ℕ) (buf : Sector) : EStateM String (Drives δ) Unit := fun drives =>
  match dev.writeBlock lba (engine.encrypt lba buf) drives.first with
  | .ok _ d => .ok () { drives with first := d }
  | .error e d => .error e { drives with first := d }

/-! ## Several sectors -/

/-- The sectors from `base` on, one after the other. -/
def writeSectors : (base count : ℕ) → (ℕ → Sector) → EStateM String (Drives δ) Unit
  | _, 0, _ => pure ()
  | base, count + 1, buf => do
    writeSectorInternal dev engine base (buf 0)
    writeSectors (base + 1) count fun i => buf (i + 1)

def readSectors :
    (base count : ℕ) → EStateM String (Drives δ) { sectors : List Sector // sectors.length = count }
  | _, 0 => pure ⟨[], rfl⟩
  | base, count + 1 => do
    let buf ← readSectorInternal dev engine base
    let rest ← readSectors (base + 1) count
    pure ⟨buf :: rest.val, by rw [length_cons, rest.property]⟩

/-- Writes to any sectors. -/
def writeAll (writes : List (ℕ × Sector)) : EStateM String (Drives δ) Unit :=
  writes.forM fun write => writeSectorInternal dev engine write.1 write.2

/-- The writes of `count` sectors from `base` on. -/
def sectorWrites (base count : ℕ) (buf : ℕ → Sector) : List (ℕ × Sector) :=
  (range count).map fun i => (base + i, buf i)

theorem sectorWrites_succ (base count : ℕ) (buf : ℕ → Sector) : sectorWrites base (count + 1) buf =
      (base, buf 0) :: sectorWrites (base + 1) count fun i => buf (i + 1) := by
  rw [sectorWrites, range_succ_eq_map, map_cons, map_map]
  exact congrArg₂ _ rfl (map_congr_left fun i _ => by simp [add_comm 1, add_assoc])

theorem writeSectors_eq_writeAll (base count : ℕ) (buf : ℕ → Sector) :
    writeSectors dev engine base count buf = writeAll dev engine (sectorWrites base count buf) := by
  induction count generalizing base buf with
  | zero => rfl
  | succ count ih =>
    rw [writeSectors, ih, sectorWrites_succ]
    rfl

theorem writeAll_cons (write : ℕ × Sector) (writes : List (ℕ × Sector)) :
    writeAll dev engine (write :: writes) =
      writeSectorInternal dev engine write.1 write.2 >>= fun _ => writeAll dev engine writes := rfl

theorem writeAll_append (first rest : List (ℕ × Sector)) : writeAll dev engine (first ++ rest) =
      writeAll dev engine first >>= fun _ => writeAll dev engine rest :=
  forM_append

theorem writeAll_singleton (write : ℕ × Sector) :
    writeAll dev engine [write] = writeSectorInternal dev engine write.1 write.2 := by
  exact bind_pure_unit

end Access

/-- The sectors after some of them are written. -/
def applied (v : ℕ → Sector) (writes : List (ℕ × Sector)) : ℕ → Sector :=
  writes.foldl (fun v write => update v write.1 write.2) v

section Applied

variable {v : ℕ → Sector} {writes : List (ℕ × Sector)} {lba : ℕ}

theorem applied_of_not_mem (other : lba ∉ writes.map Prod.fst) : applied v writes lba = v lba := by
  induction writes generalizing v with
  | nil => rfl
  | cons write writes ih =>
    rw [map_cons, mem_cons, not_or] at other
    exact (ih other.2).trans (update_of_ne other.1 ..)

theorem applied_append (first rest : List (ℕ × Sector)) :
    applied v (first ++ rest) = applied (applied v first) rest := foldl_append

theorem applied_sectorWrites (base count : ℕ) (buf : ℕ → Sector) :
    applied v (sectorWrites base count buf) lba =
      if base ≤ lba ∧ lba < base + count then buf (lba - base) else v lba := by
  induction count with
  | zero => rw [if_neg (by omega)]; rfl
  | succ count ih =>
    rw [sectorWrites, range_succ, map_append, applied_append]
    change update (applied v (sectorWrites base count buf)) (base + count) (buf count) lba = _
    by_cases last : lba = base + count
    · rw [last, update_self, if_pos (by omega), Nat.add_sub_cancel_left]
    rw [update_of_ne last, ih]
    by_cases within : base ≤ lba ∧ lba < base + count
    · rw [if_pos within, if_pos (by omega)]
    · rw [if_neg within, if_neg (by omega)]

end Applied

/-! ## Devices that do not fail -/

section Reliable

variable {δ : Type} (dev : Device δ) (engine : EncryptionEngine)

/-- The device keeps sectors `0 .. capacity` and never fails on them. -/
structure Reliable (contents : δ → ℕ → Sector) (capacity : ℕ) : Prop where
  read : ∀ lba < capacity, ∀ d, ∃ d', dev.readBlock lba d = .ok (contents d lba) d' ∧
    contents d' = contents d
  write : ∀ lba < capacity, ∀ buf d, ∃ d', dev.writeBlock lba buf d = .ok () d' ∧
    contents d' = update (contents d) lba buf

/-- The sectors as the file system sees them. -/
def view (contents : δ → ℕ → Sector) (drives : Drives δ) (lba : ℕ) : Sector :=
  engine.decrypt lba (contents drives.first lba)

variable {dev} {contents : δ → ℕ → Sector} {capacity lba base count : ℕ}
  {writes : List (ℕ × Sector)}

section

variable (reads : ∀ lba < capacity, ∀ d, ∃ d', dev.readBlock lba d = .ok (contents d lba) d' ∧
  contents d' = contents d)
include reads

theorem readSectorInternal_ok (inside : lba < capacity) (drives : Drives δ) :
    ∃ drives', readSectorInternal dev engine lba drives =
        .ok (view engine contents drives lba) drives' ∧
      view engine contents drives' = view engine contents drives := by
  obtain ⟨d, read, same⟩ := reads lba inside drives.first
  have served : readFrom dev lba drives.first drives.others =
      (.ok (contents drives.first lba), ⟨d, drives.others⟩) := by
    cases drives.others <;> simp only [readFrom, read]
  refine ⟨⟨d, drives.others⟩, by rw [readSectorInternal, served, view], ?_⟩
  funext lba
  rw [view, view, same]

theorem readSectors_ok (inside : base + count ≤ capacity) (drives : Drives δ) :
    ∃ drives', readSectors dev engine base count drives =
        .ok ⟨(range' base count).map (view engine contents drives), by simp⟩ drives' ∧
      view engine contents drives' = view engine contents drives := by
  induction count generalizing base drives with
  | zero => exact ⟨drives, rfl, rfl⟩
  | succ count ih =>
    obtain ⟨drives₁, first, same⟩ :=
      readSectorInternal_ok engine reads (by omega : base < capacity) drives
    obtain ⟨drives₂, rest, others⟩ := ih (by omega : base + 1 + count ≤ capacity) drives₁
    refine ⟨drives₂, ?_, others.trans same⟩
    rw [readSectors, bind_of_ok first, bind_of_ok rest]
    simp only [same]
    rfl

end

variable (reliable : Reliable dev contents capacity)
include reliable

theorem writeSectorInternal_ok (inside : lba < capacity) (buf : Sector) (drives : Drives δ) :
    ∃ drives', writeSectorInternal dev engine lba buf drives = .ok () drives' ∧
      view engine contents drives' = update (view engine contents drives) lba buf := by
  obtain ⟨d, written, changed⟩ :=
    reliable.write lba inside (engine.encrypt lba buf) drives.first
  refine ⟨{ drives with first := d }, by rw [writeSectorInternal, written], ?_⟩
  funext other
  rw [view, changed]
  by_cases same : other = lba
  · subst same
    rw [update_self, update_self, engine.decrypt_encrypt]
  · rw [update_of_ne same, update_of_ne same, view]

theorem writeAll_ok (inside : ∀ write ∈ writes, write.1 < capacity) (drives : Drives δ) :
    ∃ drives', writeAll dev engine writes drives = .ok () drives' ∧
      view engine contents drives' = applied (view engine contents drives) writes := by
  induction writes generalizing drives with
  | nil => exact ⟨drives, rfl, rfl⟩
  | cons write writes ih =>
    rw [forall_mem_cons] at inside
    obtain ⟨drives₁, first, changed⟩ :=
      writeSectorInternal_ok engine reliable inside.1 write.2 drives
    obtain ⟨drives₂, rest, others⟩ := ih inside.2 drives₁
    refine ⟨drives₂, (bind_of_ok first).trans rest, ?_⟩
    rw [others, changed]
    rfl

theorem writeSectors_ok (inside : base + count ≤ capacity) (buf : ℕ → Sector)
    (drives : Drives δ) :
    ∃ drives', writeSectors dev engine base count buf drives = .ok () drives' ∧
      view engine contents drives' =
        applied (view engine contents drives) (sectorWrites base count buf) := by
  rw [writeSectors_eq_writeAll]
  refine writeAll_ok engine reliable (fun write mem => ?_) drives
  obtain ⟨i, bound, rfl⟩ := mem_map.mp mem
  exact (Nat.add_lt_add_left (mem_range.mp bound) base).trans_le inside

end Reliable

end SmartOs.Drivers
