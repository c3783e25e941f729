/-
# Disks whose writes fail

A disk on which one of the coming writes fails, and what a sequence of writes does on it. A write
that fails leaves its sector with any contents. `write_file` returns at the first failure, so a
single one stands for all. It leaves the memory of its stage and a part of its sectors.
-/

import SmartOs.Drivers.DiskFsStages

namespace SmartOs.Drivers

open CS Function List

variable {bytes : List UInt8} {v w : ℕ → Sector} {lba : ℕ} {e : FileEntry}

/-! ## Reading a file -/

theorem readEntry_congr (same : ∀ lba ∈ e.occupied, w lba = v lba) :
    readEntry w e = readEntry v e := by
  ext1 data
  rw [readEntry_eq_some_iff, readEntry_eq_some_iff, content_congr same]

/-- The first byte of a sector of a file can be seen in its contents. -/
theorem head_of_readEntry (mem : lba ∈ e.occupied)
    (read : readEntry v e = some bytes) (read' : readEntry w e = some bytes) :
    (v lba).val.getD 0 0 = (w lba).val.getD 0 0 := by
  obtain ⟨i, inside, within, rfl⟩ := mem
  obtain ⟨-, bytesEq⟩ := readEntry_eq_some_iff.mp read
  obtain ⟨-, bytesEq'⟩ := readEntry_eq_some_iff.mp read'
  have same := map_inj_left.mp (bytesEq.trans bytesEq'.symm) (i * sectorSize)
    (mem_range.mpr within)
  have stored : i * sectorSize < e.sectorCount.toNat * sectorSize :=
    Nat.mul_lt_mul_of_pos_right inside (by decide)
  rwa [byteAt, byteAt, if_pos stored, if_pos stored, Nat.mul_div_cancel _ (by decide),
    Nat.mul_mod_left] at same

/-! ## The disk -/

/-- Sectors, and the failure to come: how many writes succeed before it, and what it leaves. -/
structure FaultyDisk where
  sectors : ℕ → Sector
  fault : Option (ℕ × Sector)

def faultyDevice : Device FaultyDisk where
  readBlock lba := fun disk => .ok (disk.sectors lba) disk
  writeBlock lba buf := fun disk =>
    match disk.fault with
    | none => .ok () { disk with sectors := update disk.sectors lba buf }
    | some (0, garbage) => .error "I/O error" ⟨update disk.sectors lba garbage, none⟩
    | some (left + 1, garbage) =>
      .ok () ⟨update disk.sectors lba buf, some (left, garbage)⟩

section Faults

variable (engine : EncryptionEngine) (sectors : ℕ → Sector) (fault : Option (ℕ × Sector))
  (others : List FaultyDisk)

/-- What the file system sees of the sectors. -/
def decoded : ℕ → Sector := fun lba => engine.decrypt lba (sectors lba)

/-- The sectors of the disk after some of them are written. -/
def stored (writes : List (ℕ × Sector)) : ℕ → Sector :=
  writes.foldl (fun sectors write =>
    update sectors write.1 (engine.encrypt write.1 write.2)) sectors

theorem decoded_update (lba : ℕ) (buf : Sector) : decoded engine (update sectors lba buf) =
    update (decoded engine sectors) lba (engine.decrypt lba buf) := by
  funext x
  rw [decoded]
  by_cases same : x = lba
  · subst same
    rw [update_self, update_self]
  · rw [update_of_ne same, update_of_ne same, decoded]

variable (writes : List (ℕ × Sector))

theorem decoded_stored :
    decoded engine (stored engine sectors writes) = applied (decoded engine sectors) writes := by
  induction writes generalizing sectors with
  | nil => rfl
  | cons write writes ih =>
    refine (ih _).trans ?_
    rw [decoded_update, engine.decrypt_encrypt]
    rfl

/-- The failure to come after some writes before it. -/
def nearer (writes : ℕ) : Option (ℕ × Sector) := fault.map fun f => (f.1 - writes, f.2)

theorem nearer_one (writes : ℕ) : nearer (nearer fault 1) writes = nearer fault (writes + 1) := by
  cases fault with
  | none => rfl
  | some f =>
    rw [nearer, nearer, nearer, Option.map_some, Option.map_some, Option.map_some, Nat.sub_sub,
      add_comm 1]

theorem writeAll_of_le
    (before : ∀ left garbage, fault = some (left, garbage) → writes.length ≤ left) :
    writeAll faultyDevice engine writes ⟨⟨sectors, fault⟩, others⟩ = .ok ()
      ⟨⟨stored engine sectors writes, nearer fault writes.length⟩, others⟩ := by
  induction writes generalizing sectors fault with
  | nil => cases fault <;> rfl
  | cons write writes ih =>
    rw [length_cons] at before
    have first : writeSectorInternal faultyDevice engine write.1 write.2
        ⟨⟨sectors, fault⟩, others⟩ = .ok () ⟨⟨update sectors write.1
          (engine.encrypt write.1 write.2), nearer fault 1⟩, others⟩ := by
      match fault with
      | none => rfl
      | some (left + 1, garbage) => rfl
      | some (0, garbage) => exact absurd (before 0 garbage rfl) (by omega)
    have rest := ih (update sectors write.1 (engine.encrypt write.1 write.2))
      (nearer fault 1) (by
        intro left garbage next
        obtain ⟨⟨left', garbage'⟩, now, same⟩ := Option.map_eq_some_iff.mp next
        have := before left' garbage' now
        simp only [Prod.mk.injEq] at same
        omega)
    rw [nearer_one] at rest
    exact (bind_of_ok first).trans rest

theorem writeAll_of_lt {left : ℕ} (garbage : Sector) (inside : left < writes.length) :
    ∃ e, writeAll faultyDevice engine writes ⟨⟨sectors, some (left, garbage)⟩, others⟩ =
      .error e ⟨⟨update (stored engine sectors (writes.take left)) writes[left].1 garbage,
        none⟩, others⟩ := by
  have split : writes = writes.take left ++ writes[left] :: writes.drop (left + 1) := by
    rw [← drop_eq_getElem_cons inside, take_append_drop]
  have taken : (writes.take left).length = left := by rw [length_take]; omega
  have before := writeAll_of_le engine sectors (some (left, garbage)) others (writes.take left)
    fun left' garbage' same => by
      cases same
      exact taken.le
  rw [nearer, Option.map_some, taken, Nat.sub_self] at before
  have failed : writeAll faultyDevice engine (writes[left] :: writes.drop (left + 1))
      ⟨⟨stored engine sectors (writes.take left), some (0, garbage)⟩, others⟩ = .error "I/O error"
        ⟨⟨update (stored engine sectors (writes.take left)) writes[left].1 garbage, none⟩,
          others⟩ := bind_of_error rfl
  refine ⟨"I/O error", ?_⟩
  conv_lhs => rw [split]
  rw [writeAll_append, bind_of_ok before, failed]

end Faults

end SmartOs.Drivers
