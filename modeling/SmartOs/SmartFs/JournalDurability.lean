/-
# Committed transactions in the journal

Until the next checkpoint the journal on disk is all that a crash leaves of a committed
transaction: its descriptor block with all targets, its data blocks and its commit block.

Each block is written one sector behind the one before it and covers eight sectors, so what is
written later overwrites what was written before. The blocks of the live transactions are all
intact exactly if they have the same bytes wherever they share a sector, and the descriptor lists
every target exactly if there are at most 509 of them. Updates of inodes are not written at all.
-/

import SmartOs.SmartFs.JournalSafety

namespace SmartOs.SmartFs

open CS Drivers Math List

variable {δ : Type} {dev : BlockDevice δ} {contents : δ → UInt64 → Sector}

variable (tx : Transaction)

/-- The descriptor block of a transaction. -/
def descriptorOf : DescriptorBlock :=
  .ofTargets tx.id (tx.writes.map Prod.fst)

/-- The blocks of the live transactions, at the sectors they were written to. -/
def liveBlocks (journal : Journal) (live : List (Transaction × UInt64)) : List Write :=
  live.flatMap fun entry => placed journal entry.2 (blocksOf entry.1 entry.1.writes)

/-- The operations that the blocks of a transaction stand for. -/
def recorded : List JournalOp :=
  tx.writes.map fun write => .writeBlock write.1 write.2

/-- Every transaction since the last checkpoint is in the journal: none of its operations is
missing, and there are a descriptor block that lists its targets, its data blocks and its commit
block, none of them overwritten. -/
def Durable (contents : δ → UInt64 → Sector) (h : History δ) : Prop :=
  ∀ entry ∈ h.live, recorded entry.1 = entry.1.operations ∧
    (descriptorOf entry.1).listed = entry.1.writes.map Prod.fst ∧
    ∀ block ∈ placed h.now.journal entry.2 (blocksOf entry.1 entry.1.writes),
      Held sectorAt (contents h.now.disk) block.1 block.2.sector

/-- Blocks have the same bytes in the sectors they share. -/
def Consistent (blocks : List Write) : Prop :=
  ∀ block ∈ blocks, ∀ other ∈ blocks,
    Agree sectorAt block.1 block.2.sector other.1 other.2.sector

/-- All operations write a block, and the descriptor has room for their targets. -/
def Recordable : Prop :=
  (∀ op ∈ tx.operations, op.write? ≠ none) ∧ tx.writes.length ≤ maxEntries

/-- Calls after which the live transactions are in the journal if they were before. -/
def Undamaging (h : History δ) : Call → Prop
  | .begin => True
  | .commit tx => tx.operations ≠ [] → Recordable tx ∧
      Consistent (liveBlocks h.now.journal (h.live ++ [(tx, h.now.journal.head)]))
  | .checkpoint => True

theorem listed_descriptorOf_iff : (descriptorOf tx).listed = tx.writes.map Prod.fst ↔
    tx.writes.length ≤ maxEntries := by
  have bound : ((tx.writes.map Prod.fst).take maxEntries).length < UInt32.size :=
    (length_take_le ..).trans_lt (by decide)
  rw [descriptorOf, DescriptorBlock.listed, DescriptorBlock.ofTargets,
    UInt32.toNat_ofNat_of_lt' bound, take_left, take_eq_self_iff, length_map]

theorem recorded_eq_iff : recorded tx = tx.operations ↔ ∀ op ∈ tx.operations, op.write? ≠ none := by
  obtain ⟨id, operations⟩ := tx
  rw [recorded, Transaction.writes]
  induction operations with
  | nil => simp
  | cons op operations ih =>
    cases op with
    | writeBlock target data => simpa [JournalOp.write?] using ih
    | updateInode inode metadata =>
      -- the list of the blocks is too short
      refine iff_of_false (fun all => ?_) (by simp [JournalOp.write?])
      have count := length_filterMap_le JournalOp.write? operations
      rw [filterMap_cons_none rfl] at all
      have whole := congrArg length all
      rw [length_map, length_cons] at whole
      omega

theorem entries_eq_writes {tx : Transaction} (room : tx.writes.length ≤ maxEntries) :
    entries tx.operations maxEntries = tx.writes := by
  rw [entries_eq_take]
  exact take_of_length_le room

theorem mem_liveBlocks_iff {journal : Journal} {live : List (Transaction × UInt64)}
    {block : Write} : block ∈ liveBlocks journal live ↔
      ∃ entry ∈ live, block ∈ placed journal entry.2 (blocksOf entry.1 entry.1.writes) :=
  mem_flatMap

theorem liveBlocks_congr {journal journal' : Journal}
    (start : journal'.startLba = journal.startLba) (size : journal'.sizeBlocks = journal.sizeBlocks)
    (live : List (Transaction × UInt64)) : liveBlocks journal' live = liveBlocks journal live := by
  simp [liveBlocks, placed_congr start size]

theorem durable_iff (h : History δ) : Durable contents h ↔ (∀ entry ∈ h.live, Recordable entry.1) ∧
      ∀ block ∈ liveBlocks h.now.journal h.live,
        Held sectorAt (contents h.now.disk) block.1 block.2.sector := by
  simp only [Durable, recorded_eq_iff, listed_descriptorOf_iff, mem_liveBlocks_iff]
  constructor
  · intro durable
    refine ⟨fun entry mem => ⟨(durable entry mem).1, (durable entry mem).2.1⟩, ?_⟩
    rintro block ⟨entry, mem, inside⟩
    exact (durable entry mem).2.2 block inside
  · rintro ⟨room, held⟩ entry mem
    obtain ⟨writes, short⟩ := room entry mem
    exact ⟨writes, short, fun block inside => held block ⟨entry, mem, inside⟩⟩

variable {t : Journaling δ} {h : History δ}

theorem Durable.of_same (durable : Durable contents h)
    (start : t.journal.startLba = h.now.journal.startLba)
    (size : t.journal.sizeBlocks = h.now.journal.sizeBlocks) (disk : t.disk = h.now.disk) :
    Durable contents { h with now := t } := by
  intro entry mem
  rw [placed_congr start size, disk]
  exact durable entry mem

theorem durable_commit_iff (stores : dev.Stores contents) {tx : Transaction}
    (nonempty : tx.operations ≠ []) (position : Position h.now.journal h.now.journal.head)
    (durable : Durable contents h) (ok : commit dev tx h.now = .ok () t) :
    Durable contents (h.after t (.commit tx)) ↔ Undamaging h (.commit tx) := by
  obtain ⟨u, grown, rfl, changed⟩ := commit_ok stores nonempty position ok
  obtain ⟨rooms, held⟩ := (durable_iff h).mp durable
  have after : h.after { u with journal := enqueue tx u.journal } (.commit tx) =
      ⟨{ u with journal := enqueue tx u.journal }, h.committed ++ tx.writes,
        h.live ++ [(tx, h.now.journal.head)]⟩ := by rw [History.after, if_neg nonempty]
  rw [after, durable_iff]
  rw [liveBlocks_congr (show (enqueue tx u.journal).startLba = _ from grown.startLba)
    (show (enqueue tx u.journal).sizeBlocks = _ from grown.sizeBlocks)]
  constructor
  · rintro ⟨rooms, held⟩ -
    refine ⟨rooms _ (mem_append_right _ mem_cons_self), fun block mem other known => ?_⟩
    exact (held block mem).agree (held other known)
  intro undamaging
  obtain ⟨room, consistent⟩ := undamaging nonempty
  refine ⟨forall_mem_append.mpr ⟨rooms, forall_mem_singleton.mpr room⟩, ?_⟩
  rw [entries_eq_writes room.2] at changed
  have split : liveBlocks h.now.journal (h.live ++ [(tx, h.now.journal.head)]) =
      liveBlocks h.now.journal h.live ++
        placed h.now.journal h.now.journal.head (blocksOf tx tx.writes) := by
    rw [liveBlocks, flatMap_append, flatMap_singleton, liveBlocks]
  rw [split] at consistent ⊢
  rw [changed]
  refine forall_mem_append.mpr ⟨fun block mem => ?_, fun block mem => ?_⟩
  · -- an old block: the new ones agree with it
    refine (held block mem).overlayAll sectorAt_injective ?_
    refine forall_mem_map.mpr fun other known => ?_
    exact consistent _ (mem_append_left _ mem) _ (mem_append_right _ known)
  · -- a new block: the new ones agree with each other
    have agree : ((placed h.now.journal h.now.journal.head (blocksOf tx tx.writes)).map
        asSectors).Pairwise fun w w' => Agree sectorAt w.1 w.2 w'.1 w'.2 :=
      pairwise_map.mpr (pairwise_of_forall_mem_list fun block mem other known =>
        consistent _ (mem_append_right _ mem) _ (mem_append_right _ known))
    exact held_overlayAll_of_agree sectorAt_injective agree (asSectors block)
      (mem_map_of_mem mem)

theorem checkpoint_ok {s : Journaling δ} {n : ℕ} (ok : checkpoint dev s = .ok n t) :
    t.journal.head = s.journal.head ∧ t.journal.sizeBlocks = s.journal.sizeBlocks := by
  by_cases empty : s.journal.uncheckpointedTxs = []
  · rw [checkpoint, if_pos empty] at ok
    cases ok
    exact ⟨rfl, rfl⟩
  · simp only [checkpoint, if_neg empty] at ok
    split at ok
    · cases ok
    · cases ok
      exact ⟨rfl, rfl⟩

/-- A call that returns `Ok` leaves the live transactions in the journal exactly if it meets the
condition. -/
theorem durable_returns_iff (stores : dev.Stores contents) {h' : History δ} {call : Call}
    (position : Position h.now.journal h.now.journal.head) (durable : Durable contents h)
    (returns : Returns dev h call h') :
    (Durable contents h' ↔ Undamaging h call) ∧ Position h'.now.journal h'.now.journal.head := by
  obtain ⟨now, performed, rfl⟩ := returns
  cases call with
  | begin =>
    cases performed
    exact ⟨iff_of_true (durable.of_same rfl rfl rfl) trivial, position⟩
  | checkpoint =>
    rw [perform, bind_eq_ok_iff] at performed
    obtain ⟨n, t, checkpointed, last⟩ := performed
    cases last
    obtain ⟨head, size⟩ := checkpoint_ok checkpointed
    refine ⟨iff_of_true (by simp [Durable, History.after]) trivial, ?_⟩
    rw [Position, History.after, head, size]
    exact position
  | commit tx =>
    by_cases nonempty : tx.operations = []
    · rw [perform, commit, if_pos nonempty] at performed
      cases performed
      rw [History.after, if_pos nonempty]
      exact ⟨iff_of_true durable fun other => absurd nonempty other, position⟩
    · refine ⟨durable_commit_iff stores nonempty position durable performed, ?_⟩
      obtain ⟨u, grown, rfl, -⟩ := commit_ok stores nonempty position performed
      rw [History.after, if_neg nonempty, Position]
      exact grown.sizeBlocks ▸ grown.position

/-- All calls of a run return `Ok` and after each of them the live transactions are in the journal,
exactly if all calls return `Ok` and meet the condition. -/
theorem run_durable_iff (stores : dev.Stores contents) {startLba sizeBlocks : UInt64} {disk : δ}
    {calls : List Call} {h : History δ} :
    Run (fun h call h' => Returns dev h call h' ∧ Durable contents h')
        (.start startLba sizeBlocks disk) calls h ↔
      Run (Guarded Undamaging (Returns dev)) (.start startLba sizeBlocks disk) calls h := by
  let Good (h : History δ) := Position h.now.journal h.now.journal.head ∧ Durable contents h
  have start : Good (.start startLba sizeBlocks disk) :=
    ⟨.inl rfl, by simp [Durable, History.start]⟩
  refine Run.guarded_iff (fun {s call t} good step => ?_) start
  obtain ⟨same, position⟩ := durable_returns_iff stores good.1 good.2 step
  exact ⟨same, fun undamaging => ⟨position, same.mpr undamaging⟩⟩

/-! ## Two runs -/

/-- The block that consists of eight sectors. -/
def Block.ofSectors (sectors : Fin 8 → Sector) : Block :=
  ⟨((finRange 8).map fun i => (sectors i).val).flatten, by
    simp [finRange, (sectors _).property]⟩

theorem sector_ofSectors (sectors : Fin 8 → Sector) (i : Fin 8) :
    (Block.ofSectors sectors).sector i = sectors i := by
  refine Subtype.ext (field_flatten ?_ ?_)
  · exact forall_mem_map.mpr fun i _ => (sectors i).property
  · simp

/-- A block of zeros, except for the start of a commit block at sector `i`. -/
def hiddenCommit (txId : UInt64) (i : Fin 8) : Block :=
  .ofSectors fun j => if j = i then (commitBlock txId).sector 0 else blank

/-- A transaction of seven blocks that already contain what overwrites them. -/
def resilientTx : Transaction :=
  ⟨1, (finRange 7).map fun (i : Fin 7) => .writeBlock (5000 + 8 * UInt64.ofNat i)
    (hiddenCommit 1 i.rev.succ)⟩

/-- The sectors of its blocks in the journal. -/
def resilientImage (x : UInt64) : Sector :=
  if x = 1000 then (descriptorOf resilientTx).toBlock.sector 0
  else if x = 1008 then (commitBlock 1).sector 0
  else blank

theorem held_resilientTx : ∀ block ∈ liveBlocks (Journal.init 1000 1024) [(resilientTx, 0)],
    Held sectorAt resilientImage block.1 block.2.sector := by
  have blocks : liveBlocks (Journal.init 1000 1024) [(resilientTx, 0)] =
      (1000, (descriptorOf resilientTx).toBlock) ::
        ((finRange 7).map fun (k : Fin 7) =>
          (1001 + UInt64.ofNat k, hiddenCommit 1 k.rev.succ)) ++ [(1008, commitBlock 1)] := by
    rfl
  have hidden : ∀ (k : Fin 7) (i : Fin 8), sectorAt (1001 + UInt64.ofNat k) i ≠ 1000 ∧
      (sectorAt (1001 + UInt64.ofNat k) i = 1008 ↔ i = k.rev.succ) := by
    decide
  rw [blocks]
  refine forall_mem_append.mpr ⟨forall_mem_cons.mpr ⟨?_, ?_⟩, ?_⟩
  · change ∀ i, resilientImage (sectorAt 1000 i) = (descriptorOf resilientTx).toBlock.sector i
    decide +kernel
  · refine forall_mem_map.mpr fun k _ i => ?_
    obtain ⟨behind, last⟩ := hidden k i
    rw [hiddenCommit, sector_ofSectors, resilientImage, if_neg behind]
    simp [last]
  · refine forall_mem_singleton.mpr ?_
    change ∀ i, resilientImage (sectorAt 1008 i) = (commitBlock 1).sector i
    decide +kernel

theorem returns_resilientTx : Returns memoryDevice (.start 1000 1024 (fun _ => blank, 9))
    (.commit resilientTx) (afterCommit resilientTx 9 0) :=
  ⟨(afterCommit resilientTx 9 0).now, rfl, rfl⟩

theorem undamaging_resilientTx (disk : MemoryDisk) :
    Undamaging (.start 1000 1024 disk) (.commit resilientTx) := by
  refine fun _ => ⟨⟨by decide +kernel, by decide⟩, fun block mem other known => ?_⟩
  exact Held.agree (held_resilientTx block mem) (held_resilientTx other known)

/-- The run that commits the resilient transaction. -/
theorem run_durable_resilientTx : Run (fun h call h' => Returns memoryDevice h call h' ∧
      Durable Prod.fst h') (.start 1000 1024 (fun _ => blank, 9)) [.commit resilientTx]
    (afterCommit resilientTx 9 0) :=
  (run_durable_iff memoryDevice_stores).mpr
    (.cons ⟨undamaging_resilientTx _, returns_resilientTx⟩ (.nil _))

/-- A transaction with one block: its commit block is written over the second sector of the
block. -/
theorem data_block_overwritten : ¬ ∀ (δ : Type) (dev : BlockDevice δ)
    (contents : δ → UInt64 → Sector), dev.Stores contents →
    ∀ (startLba sizeBlocks : UInt64) (disk : δ) (calls : List Call) (h : History δ),
      Run (Returns dev) (.start startLba sizeBlocks disk) calls h → Durable contents h := by
  intro durable
  have intact := durable MemoryDisk memoryDevice Prod.fst memoryDevice_stores 1000 1024 _ _
    (afterCommit sampleTx 3 0) (.cons (returns_sampleTx 0) (.nil _))
  have block := (intact (sampleTx, 0) mem_cons_self).2.2 (1001, filled 1) (by decide +kernel) 1
  revert block
  decide +kernel

end SmartOs.SmartFs
