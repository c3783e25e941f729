/-
# Writes that fail

When `write_file` returns an error, are the files that were there before still there, with their
contents? The call deletes the old file of the name first, in memory and on disk, so it is lost
by every failure after that. A call for a new name is harmless as long as files and the bitmap
agree, and as long as the name, which is cut to what fits an entry, hides no other file.

The question is asked for every state of the file system, also one whose entries overlap or
repeat a name, and for a failure of any of the writes.
-/

import SmartOs.Drivers.DiskFsFaults
import SmartOs.Drivers.DiskFsRefinement

namespace SmartOs.Drivers

open CS Math SmartPack List Function FileEntry

variable {data : List UInt8} {memory : DiskFs} {name : String} {e : FileEntry} {size : ℕ} {α : Type}

/-! ## What is read -/

variable {s : Mounted FaultyDisk}

section Reading

variable (engine : EncryptionEngine)

def Lists (s : Mounted FaultyDisk) (name : String) : Prop :=
  ∃ names t, listFiles s = .ok names t ∧ name ∈ names

def Reads (s : Mounted FaultyDisk) (name : String) (bytes : List UInt8) : Prop :=
  ∃ t, readFile faultyDevice engine name s = .ok bytes t

theorem lists_iff : Lists s name ↔ ∃ e, s.fs.lookup name = some e := by
  rw [← Option.isSome_iff_exists, DiskFs.lookup, find?_isSome]
  constructor
  · rintro ⟨names, t, listed, mem⟩
    cases listed
    obtain ⟨e, known, rfl⟩ := mem_map.mp mem
    obtain ⟨member, active⟩ := mem_filter.mp known
    exact ⟨e, member, by simp [named, active]⟩
  · rintro ⟨e, member, named⟩
    rw [FileEntry.named, Bool.and_eq_true, beq_iff_eq] at named
    refine ⟨_, s, rfl, mem_map.mpr ⟨e, mem_filter.mpr ⟨member, named.1⟩, named.2⟩⟩

theorem reads_iff {bytes : List UInt8} : Reads engine s name bytes ↔
      ∃ e, s.fs.lookup name = some e ∧
        readEntry (decoded engine s.drives.first.sectors) e = some bytes := by
  rw [Reads, DiskFs.lookup]
  simp only [readFile, get_bind_apply]
  cases s.fs.entries.find? (·.named name) with
  | none => simp
  | some e =>
    have reads : ∀ lba < 2 ^ 64, ∀ d, ∃ d', faultyDevice.readBlock lba d =
        .ok (d.sectors lba) d' ∧ d'.sectors = d.sectors := fun _ _ d => ⟨d, rfl, rfl⟩
    obtain ⟨drives, -, loaded⟩ := foldlM_readStep engine reads
      (fun i (_ : i ∈ range e.sectorCount.toNat) =>
        Nat.mod_lt (e.startSector.toNat + i) (by decide)) (replicate e.size.toNat 0) s
    simp only [orThrow_some_bind, loaded, Option.some.injEq, exists_eq_left', orThrow_eq_ok_iff,
      exists_and_left, exists_eq', and_true]
    rfl

end Reading

/-! ## Failures at every stage -/

/-- Every file of `fs` on the sectors `v` is in `fs'` too, and has the same contents on `v'`. -/
def Preserved (fs : DiskFs) (v : ℕ → Sector) (fs' : DiskFs) (v' : ℕ → Sector) : Prop :=
  ∀ name e, fs.lookup name = some e → ∃ e', fs'.lookup name = some e' ∧
    ∀ bytes, readEntry v e = some bytes → readEntry v' e' = some bytes

/-- If `write_file` returns an error, whichever write fails, the files are still there. -/
def Harmless (engine : EncryptionEngine) (fs : DiskFs) (sectors : ℕ → Sector)
    (others : List FaultyDisk) (name : String) (data : List UInt8) : Prop :=
  ∀ fault e t, writeFile faultyDevice engine name data ⟨fs, ⟨⟨sectors, fault⟩, others⟩⟩ =
      .error (.error e) t →
    ∀ other, (Lists ⟨fs, ⟨⟨sectors, fault⟩, others⟩⟩ other → Lists t other) ∧
      ∀ bytes, Reads engine ⟨fs, ⟨⟨sectors, fault⟩, others⟩⟩ other bytes →
        Reads engine t other bytes

variable (engine : EncryptionEngine)

theorem preserved_iff {t : Mounted FaultyDisk} : (∀ other, (Lists s other → Lists t other) ∧
      ∀ bytes, Reads engine s other bytes → Reads engine t other bytes) ↔
    Preserved s.fs (decoded engine s.drives.first.sectors) t.fs
      (decoded engine t.drives.first.sectors) := by
  simp only [lists_iff, reads_iff]
  constructor
  · intro kept name e found
    obtain ⟨listed, read⟩ := kept name
    obtain ⟨e', found'⟩ := listed ⟨e, found⟩
    refine ⟨e', found', fun bytes bytesOf => ?_⟩
    obtain ⟨e'', again, bytesOf'⟩ := read bytes ⟨e, found, bytesOf⟩
    rw [found'] at again
    cases again
    exact bytesOf'
  · intro preserved other
    constructor
    · rintro ⟨e, found⟩
      obtain ⟨e', found', -⟩ := preserved other e found
      exact ⟨e', found'⟩
    · rintro bytes ⟨e, found, bytesOf⟩
      obtain ⟨e', found', read⟩ := preserved other e found
      exact ⟨e', found', read bytes bytesOf⟩

/-- The files survive a failure of any write of the stages, with anything left in its sector, and
the error that the call may end with. -/
def Survives (fs : DiskFs) (v : ℕ → Sector) (ending : Except (Abort String) Unit) :
    List Stage → DiskFs → (ℕ → Sector) → Prop
  | [], memory, w => ∀ e, ending = .error (.error e) → Preserved fs v memory w
  | stage :: stages, _, w =>
    (∀ (k : ℕ) (inside : k < stage.writes.length) (garbage : Sector),
      Preserved fs v stage.memory (update (applied w (stage.writes.take k))
        stage.writes[k].1 garbage)) ∧
    Survives fs v ending stages stage.memory (applied w stage.writes)

theorem onDrives_of_error {x : EStateM String (Drives FaultyDisk) α} {e : String}
    {drives : Drives FaultyDisk} (failed : x s.drives = .error e drives) :
    onDrives x s = .error (.error e) ⟨s.fs, drives⟩ := by
  rw [onDrives, failed]

variable (fault : Option (ℕ × Sector))

/-- A failure that comes some writes later. -/
def further (writes : ℕ) : Option (ℕ × Sector) :=
  fault.map fun f => (f.1 + writes, f.2)

theorem nearer_further (writes : ℕ) : nearer (further fault writes) writes = fault := by
  cases fault with
  | none => rfl
  | some f => simp [nearer, further]

theorem le_of_further (writes left : ℕ) (garbage : Sector) (later : further fault writes = some
    (left, garbage)) : writes ≤ left := by
  obtain ⟨f, -, same⟩ := Option.map_eq_some_iff.mp later
  simp only [Prod.mk.injEq] at same
  omega

theorem survives_iff (fs : DiskFs) (v : ℕ → Sector) (ending : Except (Abort String) Unit)
    (others : List FaultyDisk) (stages : List Stage) (memory : DiskFs) (sectors : ℕ → Sector) :
    (∀ fault e t, Plan.run faultyDevice engine ⟨stages, ending⟩
        ⟨memory, ⟨⟨sectors, fault⟩, others⟩⟩ = .error (.error e) t →
      Preserved fs v t.fs (decoded engine t.drives.first.sectors)) ↔
    Survives fs v ending stages memory (decoded engine sectors) := by
  induction stages generalizing memory sectors with
  | nil =>
    constructor
    · rintro preserved e rfl
      exact preserved none e _ rfl
    intro preserved fault e t failed
    cases ending with
    | ok _ => cases failed
    | error e' =>
      cases failed
      exact preserved e rfl
  | cons stage stages ih =>
    rw [Survives, ← decoded_stored, ← ih]
    simp only [Plan.run_cons]
    constructor
    · intro preserved
      constructor
      · intro k inside garbage
        obtain ⟨e, failed⟩ := writeAll_of_lt engine sectors others stage.writes
          (engine.encrypt stage.writes[k].1 garbage) inside
        have result := preserved _ e _
          (bind_of_error (onDrives_of_error (s := ⟨stage.memory, _⟩) failed))
        rwa [decoded_update, decoded_stored, engine.decrypt_encrypt] at result
      · intro fault e t failed
        have written := writeAll_of_le engine sectors (further fault stage.writes.length) others
          stage.writes (le_of_further fault _)
        rw [nearer_further] at written
        refine preserved (further fault stage.writes.length) e t ?_
        rwa [bind_of_ok (onDrives_of_ok (s := ⟨stage.memory, _⟩) written)]
    · rintro ⟨atStage, later⟩ fault e t failed
      by_cases within : ∀ left garbage, fault = some (left, garbage) → stage.writes.length ≤ left
      · have written := writeAll_of_le engine sectors fault others stage.writes within
        rw [bind_of_ok (onDrives_of_ok (s := ⟨stage.memory, _⟩) written)] at failed
        exact later _ e t failed
      simp only [not_forall, not_le] at within
      obtain ⟨left, garbage, rfl, inside⟩ := within
      obtain ⟨e', stopped⟩ := writeAll_of_lt engine sectors others stage.writes garbage inside
      rw [bind_of_error (onDrives_of_error (s := ⟨stage.memory, _⟩) stopped)] at failed
      cases failed
      rw [decoded_update, decoded_stored]
      exact atStage left inside _

/-- Every file of `fs` on `v` is in the memory, has the same contents on `w`, and does not use the
given sectors. -/
def Intact (fs : DiskFs) (v : ℕ → Sector) (memory : DiskFs) (w : ℕ → Sector)
    (lbas : Set ℕ) : Prop :=
  ∀ name e, fs.lookup name = some e → ∃ e', memory.lookup name = some e' ∧
    ∀ bytes, readEntry v e = some bytes → readEntry w e' = some bytes ∧ Disjoint e'.occupied lbas

variable {fs now : DiskFs} {v w : ℕ → Sector} {slot start : ℕ} {name : String}

/-- A file that survives every failure of some writes does not use their sectors. -/
theorem intact_iff {writes : List (ℕ × Sector)} (nonempty : writes ≠ []) :
    (∀ (k : ℕ) (inside : k < writes.length) (garbage : Sector), Preserved fs v memory
      (update (applied w (writes.take k)) writes[k].1 garbage)) ↔
    Intact fs v memory w { lba | lba ∈ writes.map Prod.fst } := by
  have first : 0 < writes.length := length_pos_iff.mpr nonempty
  constructor
  · intro preserved name e found
    obtain ⟨e', found', -⟩ := preserved 0 first (sectorOf [] 0) name e found
    have read (k : ℕ) (inside : k < writes.length) (garbage : Sector) {bytes : List UInt8}
        (bytesOf : readEntry v e = some bytes) : readEntry (update
          (applied w (writes.take k)) writes[k].1 garbage) e' = some bytes := by
      obtain ⟨e'', again, kept⟩ := preserved k inside garbage name e found
      rw [found'] at again
      cases again
      exact kept bytes bytesOf
    refine ⟨e', found', fun bytes bytesOf => ?_⟩
    have apart : Disjoint e'.occupied { lba | lba ∈ writes.map Prod.fst } := by
      refine Set.disjoint_left.mpr fun lba used written => ?_
      obtain ⟨k, inside, rfl⟩ : ∃ k, ∃ inside : k < writes.length, writes[k].1 = lba := by
        obtain ⟨write, mem, rfl⟩ := mem_map.mp written
        obtain ⟨k, inside, rfl⟩ := mem_iff_getElem.mp mem
        exact ⟨k, inside, rfl⟩
      -- two different bytes at the start of the sector would give the same contents
      have same := head_of_readEntry used (read k inside (sectorOf [0] 0) bytesOf)
        (read k inside (sectorOf [1] 0) bytesOf)
      rw [update_self, update_self] at same
      exact absurd same (by decide)
    refine ⟨?_, apart⟩
    rw [← read 0 first (sectorOf [] 0) bytesOf]
    refine readEntry_congr fun lba used => ?_
    have other : lba ≠ writes[0].1 := by
      rintro rfl
      exact Set.disjoint_left.mp apart used (mem_map_of_mem (getElem_mem first))
    rw [update_of_ne other]
    rfl
  · intro intact k inside garbage name e found
    obtain ⟨e', found', kept⟩ := intact name e found
    refine ⟨e', found', fun bytes bytesOf => ?_⟩
    obtain ⟨read, apart⟩ := kept bytes bytesOf
    rw [← read]
    refine readEntry_congr fun lba used => ?_
    have unwritten : lba ∉ writes.map Prod.fst := fun written =>
      Set.disjoint_left.mp apart used written
    have other : lba ≠ writes[k].1 := by
      rintro rfl
      exact unwritten (mem_map_of_mem (getElem_mem inside))
    have untaken : lba ∉ (writes.take k).map Prod.fst := by
      rw [map_take]
      exact fun taken => unwritten (mem_of_mem_take taken)
    rw [update_of_ne other, applied_of_not_mem untaken]

/-! ## A new file -/

/-- The name as an entry keeps it: cut to 119 bytes, and read up to a zero. -/
def storedName (name : String) : String := (zeroed.setName name).nameStr

/-- The sectors that `sync` writes for a slot. -/
def syncSectors (slot : ℕ) : Set ℕ := { lba | lba < entryStart ∨ lba = entryStart + slot }

/-- A new entry in the slot is found under the name, whatever is behind it. -/
def Hides (fs : DiskFs) (slot : ℕ) (name other : String) : Prop :=
  storedName name = other ∧ ∀ e ∈ fs.entries.take slot, e.named other = false

/-- What creating a file in `now` must not touch, for the files that `fs` has on `v`. -/
def ClearToCreate (fs : DiskFs) (v : ℕ → Sector) (now : DiskFs) (name : String)
    (data : List UInt8) : Prop :=
  ∀ slot start, now.freeSlot = some slot → now.place data.length = some start →
    ∀ other e bytes e', fs.lookup other = some e → readEntry v e = some bytes →
      now.lookup other = some e' →
      Disjoint e'.occupied (Set.Ico start (start + sectorsNeeded data.length)) ∧
      (Hides now slot name other → bytes = data) ∧
      (¬ Hides now slot name other → Disjoint e'.occupied (syncSectors slot))

theorem find?_set (p : α → Bool) {items : List α} {i : ℕ} (inside : i < items.length)
    (fails : p items[i] = false) (a : α) : (items.set i a).find? p =
      ((items.take i).find? p).or (if p a then some a else (items.drop (i + 1)).find? p) ∧
    items.find? p = ((items.take i).find? p).or ((items.drop (i + 1)).find? p) := by
  constructor
  · rw [set_eq_take_append_cons_drop, if_pos inside, find?_append, find?_cons]
    cases p a <;> rfl
  · conv_lhs => rw [← take_append_drop i items, drop_eq_getElem_cons inside]
    rw [find?_append, find?_cons_of_neg (by simp [fails])]

theorem syncSectors_eq : { lba | lba ∈ (syncWrites fs slot).map Prod.fst } = syncSectors slot := by
  ext lba
  have constants := layout
  simp only [syncWrites, sectorWrites, map_append, map_cons, map_map, mem_append, mem_cons,
    mem_map, mem_range, map_nil, not_mem_nil, syncSectors, Set.mem_ofPred_eq, comp_apply, or_false]
  constructor
  · rintro ((here | ⟨i, inside, rfl⟩) | rfl) <;> omega
  intro written
  by_cases bitmap : 1 ≤ lba ∧ lba < 5
  · exact .inl (.inr ⟨lba - 1, by omega, by omega⟩)
  · omega

theorem survives_sync_iff :
    (∀ (k : ℕ) (inside : k < (syncWrites memory slot).length) (garbage : Sector),
      Preserved fs v memory (update (applied w ((syncWrites memory slot).take k))
        (syncWrites memory slot)[k].1 garbage)) ↔ Intact fs v memory w (syncSectors slot) := by
  rw [← syncSectors_eq]
  exact intact_iff (cons_ne_nil _ _)

theorem named_fill (e : FileEntry) (other : String) (size count : ℕ) :
    (e.fill name size start count).named other = (storedName name == other) := rfl

theorem lookup_extended (free : fs.freeSlot = some slot) (other : String) (size count : ℕ) :
    (Hides fs slot name other → (fs.extended slot name size start count).lookup other =
      some ((fs.entries.getD slot zeroed).fill name size start count)) ∧
    (¬ Hides fs slot name other → (fs.extended slot name size start count).lookup other =
      fs.lookup other) := by
  obtain ⟨inside, inactive, -⟩ := findIdx?_eq_some_iff_getElem.mp free
  have unnamed : (fs.entries[slot]).named other = false := by
    rw [named, Bool.and_eq_false_iff]
    exact .inl (by simpa using inactive)
  obtain ⟨after, before⟩ := find?_set (·.named other) inside unnamed
    ((fs.entries.getD slot zeroed).fill name size start count)
  have looked : (fs.extended slot name size start count).lookup other =
      (fs.entries.set slot ((fs.entries.getD slot zeroed).fill name size start count)).find?
        (·.named other) := rfl
  rw [looked, DiskFs.lookup, after, before, named_fill]
  constructor
  · rintro ⟨stored, earlier⟩
    have nothing : (fs.entries.take slot).find? (·.named other) = none :=
      find?_eq_none.mpr fun e mem => by simp [earlier e mem]
    rw [nothing, Option.none_or, if_pos (by simpa using stored)]
  intro visible
  cases search : (fs.entries.take slot).find? (·.named other) with
  | some e => rfl
  | none =>
    have ne : ¬ (storedName name == other) := by
      intro stored
      refine visible ⟨by simpa using stored, fun e mem => ?_⟩
      simpa using find?_eq_none.mp search e mem
    rw [if_neg ne]

theorem occupied_fill (e : FileEntry)
    (small : start + max (sectorsNeeded size) 1 ≤ bitmapBits) :
    (e.fill name size start (max (sectorsNeeded size) 1)).occupied ⊆
      Set.Ico start (start + sectorsNeeded size) := by
  have fits := le_sectorsNeeded size
  obtain ⟨sizeEq, first, number⟩ := fill_toNat e name small
    (fits.trans (Nat.mul_le_mul_right _ (le_max_left ..)))
  rintro lba ⟨i, inside, within, rfl⟩
  have bits : bitmapBits = 16384 := rfl
  have round : i < sectorsNeeded size := by
    simp only [show sectorSize = 512 from rfl] at within fits
    omega
  exact ⟨by omega, by omega⟩

theorem readEntry_fill (e : FileEntry) (name : String)
    (small : start + max (sectorsNeeded data.length) 1 ≤ bitmapBits)
    (written : ∀ i < sectorsNeeded data.length, v (start + i) = sectorOf data i) :
    readEntry v (e.fill name data.length start (max (sectorsNeeded data.length) 1)) =
      some data := by
  obtain ⟨size, -, number⟩ := fill_toNat e name small
    ((le_sectorsNeeded data.length).trans (Nat.mul_le_mul_right _ (le_max_left ..)))
  exact readEntry_eq_some_iff.mpr ⟨readable_of_sized (by rw [size, number]),
    content_fill e name small written⟩

theorem map_fst_sectorWrites (n : ℕ) (buf : ℕ → Sector) :
    { lba | lba ∈ (sectorWrites start n buf).map Prod.fst } = Set.Ico start (start + n) := by
  ext lba
  simp only [sectorWrites, map_map, mem_map, mem_range, comp_apply, Set.mem_Ico]
  constructor
  · rintro ⟨i, inside, rfl⟩
    omega
  · intro within
    exact ⟨lba - start, by omega, by omega⟩

theorem survives_data_iff (kept : Preserved fs v now w) (start n count : ℕ) (buf : ℕ → Sector) :
    (∀ (k : ℕ) (inside : k < (sectorWrites start n buf).length) (garbage : Sector),
      Preserved fs v (now.markUsed start count) (update
        (applied w ((sectorWrites start n buf).take k)) (sectorWrites start n buf)[k].1 garbage)) ↔
    ∀ other e bytes e', fs.lookup other = some e → readEntry v e = some bytes →
      now.lookup other = some e' → Disjoint e'.occupied (Set.Ico start (start + n)) := by
  rcases Nat.eq_zero_or_pos n with rfl | pos
  · simp [sectorWrites]
  have nonempty : sectorWrites start n buf ≠ [] := by
    simpa [sectorWrites] using pos.ne'
  refine (intact_iff nonempty).trans ?_
  rw [map_fst_sectorWrites]
  constructor
  · intro intact other e bytes e' found bytesOf found'
    obtain ⟨e'', again, rest⟩ := intact other e found
    cases (found'.symm.trans again : some e' = some e'')
    exact (rest bytes bytesOf).2
  · intro apart other e found
    obtain ⟨e', found', read⟩ := kept other e found
    exact ⟨e', found', fun bytes bytesOf =>
      ⟨read bytes bytesOf, apart other e bytes e' found bytesOf found'⟩⟩

theorem preserved_written {n : ℕ} (buf : ℕ → Sector) (kept : Preserved fs v now w)
    (apart : ∀ other e bytes e', fs.lookup other = some e → readEntry v e = some bytes →
      now.lookup other = some e' → Disjoint e'.occupied (Set.Ico start (start + n))) :
    Preserved fs v now (applied w (sectorWrites start n buf)) := by
  intro other e found
  obtain ⟨e', found', read⟩ := kept other e found
  refine ⟨e', found', fun bytes bytesOf => ?_⟩
  rw [← read bytes bytesOf]
  refine readEntry_congr fun lba used => applied_of_not_mem ?_
  intro written
  have within : lba ∈ Set.Ico start (start + n) := map_fst_sectorWrites n buf ▸ written
  exact Set.disjoint_left.mp (apart other e bytes e' found bytesOf found') used within

/-- Files survive the new entry exactly if it hides no other contents, and those that it does not
hide do not use the sectors of the entry, the bitmap and the superblock. -/
theorem survives_entry_iff (kept : Preserved fs v now w) (free : now.freeSlot = some slot)
    (small : dataStart ≤ start ∧ start + max (sectorsNeeded data.length) 1 ≤ bitmapBits)
    (written : ∀ i < sectorsNeeded data.length, w (start + i) = sectorOf data i) :
    Intact fs v (now.extended slot name data.length start (max (sectorsNeeded data.length) 1)) w
        (syncSectors slot) ↔
    ∀ other e bytes e', fs.lookup other = some e → readEntry v e = some bytes →
      now.lookup other = some e' → (Hides now slot name other → bytes = data) ∧
        (¬ Hides now slot name other → Disjoint e'.occupied (syncSectors slot)) := by
  have read := readEntry_fill (now.entries.getD slot zeroed) name small.2 written
  have apart : Disjoint ((now.entries.getD slot zeroed).fill name data.length start
      (max (sectorsNeeded data.length) 1)).occupied (syncSectors slot) := by
    refine Set.disjoint_left.mpr fun lba used synced => ?_
    have range := occupied_fill _ small.2 used
    have slots : slot < maxFiles := (vacant_of_freeSlot free).1
    have constants := layout
    obtain ⟨low, -⟩ := range
    rcases synced with before | entry <;> omega
  constructor
  · intro intact other e bytes e' found bytesOf found'
    obtain ⟨hidden, visible⟩ := lookup_extended free other data.length
      (max (sectorsNeeded data.length) 1)
    obtain ⟨e'', again, rest⟩ := intact other e found
    obtain ⟨bytesOf', apart'⟩ := rest bytes bytesOf
    constructor
    · intro hides
      cases (hidden hides).symm.trans again
      rw [read] at bytesOf'
      exact (Option.some.inj bytesOf').symm
    · intro visibleStill
      cases (found'.symm.trans ((visible visibleStill).symm.trans again) : some e' = some e'')
      exact apart'
  · intro clear other e found
    obtain ⟨hidden, visible⟩ := lookup_extended free other data.length
      (max (sectorsNeeded data.length) 1)
    obtain ⟨e', found', same⟩ := kept other e found
    by_cases hides : Hides now slot name other
    · refine ⟨_, hidden hides, fun bytes bytesOf => ⟨?_, apart⟩⟩
      rw [read, (clear other e bytes e' found bytesOf found').1 hides]
    · refine ⟨e', (visible hides).trans found', fun bytes bytesOf => ?_⟩
      exact ⟨same bytes bytesOf, (clear other e bytes e' found bytesOf found').2 hides⟩

theorem survives_create_iff (kept : Preserved fs v now w) (data : List UInt8) :
    Survives fs v (createPlan now name data).ending (createPlan now name data).stages now w ↔
      ClearToCreate fs v now name data := by
  rw [createPlan, ClearToCreate]
  cases free : now.freeSlot with
  | none => simp [Survives, kept]
  | some slot =>
    cases place : now.place data.length with
    | none => simp [Survives, kept]
    | some start =>
      have dataStage := survives_data_iff kept start (sectorsNeeded data.length)
        (max (sectorsNeeded data.length) 1) (sectorOf data)
      have bounds : dataStart ≤ start ∧ start + max (sectorsNeeded data.length) 1 ≤ bitmapBits :=
        (place_bounds place).imp_right fun last => last.trans (min_le_right ..)
      have written (i : ℕ) (inside : i < sectorsNeeded data.length) : applied w (sectorWrites start
          (sectorsNeeded data.length) (sectorOf data)) (start + i) = sectorOf data i := by
        rw [applied_sectorWrites, if_pos (by omega), Nat.add_sub_cancel_left]
      simp only [Survives, Option.some.injEq, reduceCtorEq, false_implies, implies_true, and_true]
      rw [survives_sync_iff]
      -- once the data is written without harm, the entry is looked at on the new sectors
      constructor
      · rintro ⟨dataSafe, entrySafe⟩
        have apart := dataStage.mp dataSafe
        have kept' := preserved_written (sectorOf data) kept apart
        have visible := (survives_entry_iff kept' free bounds written).mp entrySafe
        rintro _ _ rfl rfl other e bytes e' found bytesOf found'
        exact ⟨apart other e bytes e' found bytesOf found',
          visible other e bytes e' found bytesOf found'⟩
      · intro clear
        have apart := fun other e bytes e' found bytesOf found' =>
          (clear slot start rfl rfl other e bytes e' found bytesOf found').1
        have kept' := preserved_written (sectorOf data) kept apart
        refine ⟨dataStage.mpr apart, (survives_entry_iff kept' free bounds written).mpr ?_⟩
        intro other e bytes e' found bytesOf found'
        exact (clear slot start rfl rfl other e bytes e' found bytesOf found').2

/-! ## The call -/

/-- What `write_file` must meet to be harmless: an old file of the name, that it deletes first,
has to be hidden behind another one with the same contents, and a new file has to be clear of all
the others. -/
def ClearToWrite (fs : DiskFs) (v : ℕ → Sector) (name : String) (data : List UInt8) : Prop :=
  match fs.entries.findIdx? (·.named name) with
  | none => ClearToCreate fs v fs name data
  | some slot => DiskFs.Overruns (fs.entries.getD slot zeroed) ∨
    (Intact fs v (fs.gone slot) v (syncSectors slot) ∧ ClearToCreate fs v (fs.gone slot) name data)

theorem Preserved.refl (fs : DiskFs) (v : ℕ → Sector) : Preserved fs v fs v :=
  fun _ e found => ⟨e, found, fun _ => id⟩

theorem survives_write_iff (data : List UInt8) :
    Survives fs v (writePlan fs name data).ending (writePlan fs name data).stages fs v ↔
      ClearToWrite fs v name data := by
  rw [writePlan, ClearToWrite]
  cases fs.entries.findIdx? (·.named name) with
  | none => exact survives_create_iff (Preserved.refl fs v) data
  | some slot =>
    by_cases overruns : DiskFs.Overruns (fs.entries.getD slot zeroed)
    · simp only [overruns, true_or, iff_true]
      rintro e ⟨⟩
    simp only [overruns, if_false, false_or, Survives, survives_sync_iff]
    refine and_congr_right fun intact => survives_create_iff ?_ data
    intro other e found
    obtain ⟨e', found', kept⟩ := intact other e found
    refine ⟨e', found', fun bytes bytesOf => ?_⟩
    rw [← (kept bytes bytesOf).1]
    refine readEntry_congr fun lba used => applied_of_not_mem fun written => ?_
    exact Set.disjoint_left.mp (kept bytes bytesOf).2 used
      (syncSectors_eq ▸ written)

theorem harmless_iff_survives (sectors : ℕ → Sector) (others : List FaultyDisk)
    (data : List UInt8) : Harmless engine fs sectors others name data ↔
      Survives fs (decoded engine sectors) (writePlan fs name data).ending
        (writePlan fs name data).stages fs (decoded engine sectors) := by
  rw [← survives_iff engine _ _ _ others]
  refine forall_congr' fun fault => forall_congr' fun e => forall_congr' fun t => ?_
  rw [writeFile_eq, preserved_iff]

/-- A failed `write_file` keeps all files and their contents, whichever of its writes fails and
whatever that leaves in the sector, exactly if the call is clear of them. -/
theorem harmless_iff_clearToWrite (engine : EncryptionEngine) (fs : DiskFs)
    (sectors : ℕ → Sector) (others : List FaultyDisk) (name : String) (data : List UInt8) :
    Harmless engine fs sectors others name data ↔
      ClearToWrite fs (decoded engine sectors) name data :=
  (harmless_iff_survives engine sectors others data).trans
    (survives_write_iff data)

/-! ## Sound states -/

section

variable (sound : Sound fs v)
include sound

theorem clearToCreate_of_sound (ok : NameOk name)
    (fresh : fs.lookup name = none) (data : List UInt8) : ClearToCreate fs v fs name data := by
  intro slot start free place other e bytes e' found _ found'
  rw [found] at found'
  cases found'
  obtain ⟨own, inTable, -⟩ := sound.lookup_eq_some_iff.mp found
  have within := sound.occupied_subset inTable
  refine ⟨?_, ?_, fun _ => ?_⟩
  · -- the new sectors are not marked, and those of files are
    have unused := (place_sound place).2
    refine Set.disjoint_left.mpr fun lba used new => ?_
    refine Set.disjoint_left.mp unused ?_ (sound.laid.used_iff.mpr
      (.inr ⟨own, e, inTable, within used⟩))
    exact ⟨new.1, new.2.trans_le (Nat.add_le_add_left (le_max_left ..) _)⟩
  · rintro ⟨stored, -⟩
    have same : other = name := stored.symm.trans (nameStr_fill zeroed ok 0 0 0)
    rw [same, fresh] at found
    cases found
  · refine Set.disjoint_left.mpr fun lba used synced => ?_
    have low := (sound.laid.inside inTable (within used)).1
    have slots : slot < maxFiles := (vacant_of_freeSlot free).1
    have constants := layout
    rcases synced with before | entry <;> omega

/-- In a sound state the only file of a name is gone once it is deleted. -/
theorem lookup_gone (search : fs.entries.findIdx? (·.named name) = some slot) :
    (fs.gone slot).lookup name = none := by
  obtain ⟨e, found, named, -⟩ := table_of_findIdx search
  have table := gone_table fs (DiskFs.slot_lt found)
  rw [DiskFs.lookup, find?_eq_none]
  intro f mem namedF
  rw [FileEntry.named, Bool.and_eq_true, beq_iff_eq] at namedF
  obtain ⟨other, place⟩ := mem_iff_getElem?.mp mem
  have left : update fs.table slot none other = some f :=
    table ▸ DiskFs.table_eq_some_iff.mpr ⟨place, namedF.1⟩
  rcases update_eq_some_iff.mp left with ⟨-, none⟩ | ⟨ne, foundF⟩
  · cases none
  · exact ne (sound.names foundF found (namedF.2.trans named.symm))

theorem clearToWrite_iff_of_sound (ok : NameOk name) (data : List UInt8) :
    ClearToWrite fs v name data ↔ fs.lookup name = none := by
  rw [ClearToWrite]
  cases search : fs.entries.findIdx? (·.named name) with
  | none =>
    have fresh : fs.lookup name = none := by
      rw [DiskFs.lookup, find?_eq_none]
      intro e mem
      rw [findIdx?_eq_none_iff.mp search e mem]
      exact Bool.false_ne_true
    exact iff_of_true (clearToCreate_of_sound sound ok fresh data) fresh
  | some slot =>
    obtain ⟨e, found, named, entry⟩ := table_of_findIdx search
    have present : fs.lookup name = some e := sound.lookup_eq_some_iff.mpr ⟨slot, found, named⟩
    refine iff_of_false ?_ (by simp [present])
    rintro (overruns | ⟨intact, -⟩)
    · exact not_overruns sound found (entry ▸ overruns)
    -- the deletion alone already loses the file
    obtain ⟨e', kept, -⟩ := intact name e present
    rw [lookup_gone sound search] at kept
    cases kept

end

/-- In a sound state a failed `write_file` is harmless exactly for the names of no file. -/
theorem harmless_iff_fresh {engine : EncryptionEngine} {sectors : ℕ → Sector}
    (sound : Sound fs (decoded engine sectors)) (others : List FaultyDisk) (ok : NameOk name)
    (data : List UInt8) : Harmless engine fs sectors others name data ↔ fs.lookup name = none :=
  (harmless_iff_survives engine sectors others data).trans
    ((survives_write_iff data).trans (clearToWrite_iff_of_sound sound ok data))

/-- After formatting and any calls with room, `write_file` is harmless, should it fail, exactly for
the names that the map does not have. -/
theorem harmless_run_iff {δ : Type} {dev : Device δ} {engine : EncryptionEngine}
    {contents : δ → ℕ → Sector} {capacity totalSectors : ℕ} {drives drives' : Drives δ}
    {fs : DiskFs} {ops : List Op} {s : Mounted δ} {files : Files} {name : String}
    (reliable : Reliable dev contents capacity) (room : dataStart ≤ capacity)
    (total : totalSectors ≤ capacity) (small : totalSectors ≤ bitmapBits)
    (formatted : format dev engine totalSectors drives = .ok fs drives')
    (run : Run (Guarded Op.Good fun state op state' => op.next dev engine state = state')
      (⟨fs, drives'⟩, fun _ => none) ops (s, files))
    (others : List FaultyDisk) (ok : NameOk name) (data : List UInt8) :
    Harmless engine s.fs (contents s.drives.first) others name data ↔ files name = none := by
  obtain ⟨_, _, same, start⟩ := format_ok engine reliable room small drives
  cases formatted.symm.trans same
  let inv (state : Mounted δ × Files) : Prop :=
    Refines engine contents totalSectors state.1 state.2
  have refines : inv (s, files) := by
    refine run.invariant ?_ start
    rintro ⟨s, files⟩ op state' ⟨good, rfl⟩ refines
    exact refines_next reliable room total refines good
  rw [← show _ = files from refines.files_eq]
  exact (harmless_iff_fresh refines.sound others ok data).trans Option.map_eq_none_iff.symm

/-- After some calls there is a file `a`, which survives a failing write of `c` but not one of
`a`. -/
theorem harmless_run_iff_calls :
    let s := (after 128 calls).1
    (s.fs.lookup "a").isSome ∧ (after 128 calls).2 "a" = some [1, 2] ∧
      Harmless plain s.fs s.drives.first [] "c" [1] ∧
      ¬Harmless plain s.fs s.drives.first [] "a" [1] := by
  have iff (name : String) (ok : NameOk name) := harmless_run_iff (memory_reliable 128) (by decide)
    le_rfl (by decide) (format_memory (by decide)) run_calls [] ok [1]
  exact ⟨by decide +kernel, by decide +kernel, (iff "c" (by decide)).mpr (by decide +kernel),
    (iff "a" (by decide)).not.mpr (by decide +kernel)⟩

/-! ## A file that is lost -/

/-- A disk of 70 sectors with a file that takes the only one for data. -/
@[irreducible] def fullDisk : Mounted FaultyDisk :=
  match format faultyDevice plain 70 ⟨⟨fun _ => sectorOf [] 0, none⟩, []⟩ with
  | .ok fs drives => match writeFile faultyDevice plain "a" [1] ⟨fs, drives⟩ with
    | .ok _ s => s
    | .error _ s => s
  | .error _ drives => ⟨⟨replicate maxFiles zeroed, replicate 2048 0, 0,
      length_replicate, length_blank⟩, drives⟩

/-- The call returned an error, and the name now stands for nothing. -/
def failedWithout (name : String) : EStateM.Result (Abort String) (Mounted FaultyDisk) Unit → Bool
  | .error (.error _) t => (t.fs.lookup name).isNone
  | _ => false

/-- No device fails, but the file is deleted before it turns out that there is no room. -/
theorem full_disk_loses_file :
    ¬ Harmless plain fullDisk.fs fullDisk.drives.first.sectors fullDisk.drives.others "a"
      (replicate 513 0) := by
  intro harmless
  have lost : failedWithout "a" (writeFile faultyDevice plain "a" (replicate 513 0)
      ⟨fullDisk.fs, ⟨⟨fullDisk.drives.first.sectors, none⟩, fullDisk.drives.others⟩⟩) := by
    decide +kernel
  have present : (fullDisk.fs.lookup "a").isSome := by decide +kernel
  cases result : writeFile faultyDevice plain "a" (replicate 513 0)
      ⟨fullDisk.fs, ⟨⟨fullDisk.drives.first.sectors, none⟩, fullDisk.drives.others⟩⟩ with
  | ok _ t =>
    rw [result] at lost
    cases lost
  | error e t =>
    cases e with
    | panic =>
      rw [result] at lost
      cases lost
    | error e =>
      have kept := ((harmless none e t result "a").1
        (lists_iff.mpr (Option.isSome_iff_exists.mp present)))
      obtain ⟨entry, found⟩ := lists_iff.mp kept
      rw [result, failedWithout, found] at lost
      cases lost

end SmartOs.Drivers
