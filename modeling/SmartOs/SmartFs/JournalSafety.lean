/-
# What the journal keeps

Two questions about runs of `begin`, `commit` and `checkpoint`. Does a checkpoint write every
committed block to its target, or keep it queued? And are the blocks of a committed transaction
still in the journal until the next checkpoint?

A checkpoint that fails forgets the whole queue, so the first is true only while the device
accepts its writes. Blocks of the journal are one sector apart and eight sectors long, so the
second is true only as long as blocks that share a sector have the same bytes there.
-/

import SmartOs.CS.Run
import SmartOs.SmartFs.Journal

namespace SmartOs.SmartFs

open CS Drivers Math
open List hiding modify

variable {writes : List Write} {call : Call}

variable {δ : Type} {dev : BlockDevice δ} {contents : δ → UInt64 → Sector}

/-! ## Committing -/

/-- The blocks of a transaction in the order in which they are written. -/
def blocksOf (tx : Transaction) (kept : List Write) : List Block :=
  (DescriptorBlock.ofTargets tx.id (kept.map Prod.fst)).toBlock ::
    (kept.map Prod.snd ++ [commitBlock tx.id])

/-- Blocks written from the position `head` of the journal on, with the sectors they start at. -/
def placed (journal : Journal) : UInt64 → List Block → List Write
  | _, [] => []
  | head, block :: blocks =>
    (journal.startLba + head, block) :: placed journal ((head + 1) % journal.sizeBlocks) blocks

/-- A block as the sectors that are written. -/
def asSectors (write : Write) : UInt64 × (Fin 8 → Sector) := (write.1, write.2.sector)

theorem entries_eq_take (ops : List JournalOp) (room : ℕ) :
    entries ops room = (ops.filterMap JournalOp.write?).take room := by
  induction ops generalizing room with
  | nil => simp [entries]
  | cons op ops ih =>
    cases op with
    | updateInode inode metadata =>
      rw [entries, ih, filterMap_cons_none rfl]
    | writeBlock targetLba data =>
      have first : JournalOp.write? (.writeBlock targetLba data) = some (targetLba, data) := rfl
      rw [filterMap_cons_some first]
      cases room with
      | zero => rw [entries, take_zero]
      | succ room => rw [entries, ih, take_succ_cons]

theorem appendAll_append (blocks blocks' : List Block) : appendAll dev (blocks ++ blocks') =
      appendAll dev blocks >>= fun _ => appendAll dev blocks' := by
  induction blocks with
  | nil => rw [nil_append, appendAll, pure_bind]
  | cons block blocks ih => rw [cons_append, appendAll, appendAll, ih, bind_assoc]

variable {tx : Transaction} {s t : Journaling δ} {disk : δ} {h : History δ}

/-- A commit writes its blocks one after another and then queues the transaction. -/
theorem commit_eq (nonempty : tx.operations ≠ []) :
    commit dev tx = appendAll dev (blocksOf tx (entries tx.operations maxEntries)) >>= fun _ =>
      modify fun s => { s with journal := enqueue tx s.journal } := by
  rw [commit, if_neg nonempty, blocksOf, appendAll, appendAll_append]
  simp [appendAll]

/-- Positions of the head. It is 0 also in a journal without blocks. -/
def Position (journal : Journal) (p : UInt64) : Prop := p = 0 ∨ p < journal.sizeBlocks

/-- From `s` to `t` only sectors of the journal have changed, and its head. -/
structure Grown (contents : δ → UInt64 → Sector) (s t : Journaling δ) : Prop where
  startLba : t.journal.startLba = s.journal.startLba
  sizeBlocks : t.journal.sizeBlocks = s.journal.sizeBlocks
  queue : t.journal.uncheckpointedTxs = s.journal.uncheckpointedTxs
  position : Position s.journal t.journal.head
  outside : ∀ x, (∀ p, Position s.journal p → ∀ i, sectorAt (s.journal.startLba + p) i ≠ x) →
    contents t.disk x = contents s.disk x

theorem Grown.refl (position : Position s.journal s.journal.head) :
    Grown contents s s := ⟨rfl, rfl, rfl, position, fun _ _ => rfl⟩

theorem Grown.trans {u : Journaling δ} (first : Grown contents s t) (second : Grown contents t u) :
    Grown contents s u where
  startLba := second.startLba.trans first.startLba
  sizeBlocks := second.sizeBlocks.trans first.sizeBlocks
  queue := second.queue.trans first.queue
  position := by
    have position := second.position
    rwa [Position, first.sizeBlocks] at position
  outside x away := by
    refine (second.outside x fun p position => ?_).trans (first.outside x away)
    rw [Position, first.sizeBlocks] at position
    rw [first.startLba]
    exact away p position

theorem append_grown (stores : dev.Stores contents) (block : Block)
    (position : Position s.journal s.journal.head) :
    Grown contents s (finalState (append dev block s)) := by
  rw [append]
  cases written : dev.writeBlocks (s.journal.startLba + s.journal.head) block s.disk with
  | error e disk =>
    exact ⟨rfl, rfl, rfl, position, fun x away => stores.error written x (away _ position)⟩
  | ok _ disk =>
    have outside : ∀ x, (∀ p, Position s.journal p →
        ∀ i, sectorAt (s.journal.startLba + p) i ≠ x) → contents disk x = contents s.disk x := by
      intro x away
      rw [stores.ok written, overlay_of_forall_ne (away _ position)]
    dsimp only
    split
    · exact ⟨rfl, rfl, rfl, position, outside⟩
    rename_i blocks
    refine ⟨rfl, rfl, rfl, .inr ?_, outside⟩
    exact UInt64.mod_lt _ (UInt64.pos_iff_ne_zero.mpr blocks)

theorem appendAll_grown (stores : dev.Stores contents) (blocks : List Block)
    (position : Position s.journal s.journal.head) :
    Grown contents s (finalState (appendAll dev blocks s)) := by
  induction blocks generalizing s with
  | nil => exact .refl position
  | cons block blocks ih =>
    have first := append_grown stores block position
    rw [appendAll]
    cases result : append dev block s with
    | error e t =>
      rw [bind_of_error result]
      rwa [result] at first
    | ok _ t =>
      rw [bind_of_ok result]
      rw [result] at first
      refine first.trans (ih ?_)
      rw [Position, first.sizeBlocks]
      exact first.position

theorem placed_congr {journal journal' : Journal} (start : journal'.startLba = journal.startLba)
    (size : journal'.sizeBlocks = journal.sizeBlocks) (head : UInt64) (blocks : List Block) :
    placed journal' head blocks = placed journal head blocks := by
  induction blocks generalizing head with
  | nil => rfl
  | cons block blocks ih => rw [placed, placed, ih, start, size]

section

variable (stores : dev.Stores contents)
include stores

theorem appendAll_ok {blocks : List Block}
    (success : appendAll dev blocks s = .ok () t) : contents t.disk = overlayAll sectorAt
      (contents s.disk) ((placed s.journal s.journal.head blocks).map asSectors) := by
  induction blocks generalizing s with
  | nil =>
    cases success
    rfl
  | cons block blocks ih =>
    rw [appendAll, bind_eq_ok_iff] at success
    obtain ⟨_, u, first, rest⟩ := success
    rw [append] at first
    cases written : dev.writeBlocks (s.journal.startLba + s.journal.head) block s.disk with
    | error e disk => simp [written] at first
    | ok _ disk =>
      simp only [written] at first
      split at first
      · cases first
      cases first
      have same : placed (advanceHead s.journal) (advanceHead s.journal).head blocks =
          placed s.journal ((s.journal.head + 1) % s.journal.sizeBlocks) blocks :=
        placed_congr (by rfl) (by rfl) _ _
      rw [ih rest, stores.ok written, same]
      rfl

/-- What is known when a commit of a transaction with operations has returned. -/
theorem commit_ok (nonempty : tx.operations ≠ [])
    (position : Position s.journal s.journal.head) (ok : commit dev tx s = .ok () t) :
    ∃ u, Grown contents s u ∧ t = { u with journal := enqueue tx u.journal } ∧
      contents t.disk = overlayAll sectorAt (contents s.disk) ((placed s.journal s.journal.head
        (blocksOf tx (entries tx.operations maxEntries))).map asSectors) := by
  rw [commit_eq nonempty, bind_eq_ok_iff] at ok
  obtain ⟨_, u, appended, queued⟩ := ok
  cases queued
  have grown := appendAll_grown stores (blocksOf tx (entries tx.operations maxEntries)) position
  rw [appended] at grown
  have written := appendAll_ok stores appended
  exact ⟨u, grown, rfl, written⟩

theorem commit_error {e : Abort String}
    (position : Position s.journal s.journal.head) (failed : commit dev tx s = .error e t) :
    Grown contents s t := by
  by_cases nonempty : tx.operations = []
  · rw [commit, if_pos nonempty] at failed
    cases failed
  have grown := appendAll_grown stores (blocksOf tx (entries tx.operations maxEntries)) position
  rw [commit_eq nonempty] at failed
  cases appended : appendAll dev (blocksOf tx (entries tx.operations maxEntries)) s with
  | ok _ u =>
    rw [bind_of_ok appended] at failed
    cases failed
  | error e' u =>
    rw [bind_of_error appended] at failed
    cases failed
    rwa [appended] at grown

/-! ## Checkpoints -/

/-- The device accepts the writes one after another. -/
def Accepts (dev : BlockDevice δ) : List Write → δ → Prop
  | [], _ => True
  | write :: writes, disk =>
    ∃ disk', dev.writeBlocks write.1 write.2 disk = .ok () disk' ∧ Accepts dev writes disk'

/-- The writes from the first on that fails. -/
def unwritten (dev : BlockDevice δ) (writes : List Write) (disk : δ) : List Write :=
  (flush dev writes disk).1.elim [] Prod.snd

theorem flush_of_accepts
    (accepts : Accepts dev writes disk) : ∃ disk', flush dev writes disk = (none, disk') ∧
      contents disk' = overlayAll sectorAt (contents disk) (writes.map asSectors) := by
  induction writes generalizing disk with
  | nil => exact ⟨disk, rfl, rfl⟩
  | cons write writes ih =>
    obtain ⟨disk₁, written, others⟩ := accepts
    obtain ⟨disk₂, flushed, changed⟩ := ih others
    refine ⟨disk₂, by simp [flush, written, flushed], ?_⟩
    rw [changed, stores.ok written]
    rfl

end

theorem flush_of_not_accepts (refused : ¬ Accepts dev writes disk) :
    ∃ e write rest disk', flush dev writes disk = (some (e, write :: rest), disk') := by
  induction writes generalizing disk with
  | nil => exact absurd trivial refused
  | cons write writes ih =>
    cases written : dev.writeBlocks write.1 write.2 disk with
    | error e disk' => exact ⟨e, write, writes, disk', by rw [flush, written]⟩
    | ok _ disk' =>
      obtain ⟨e, next, rest, disk'', failed⟩ :=
        ih fun accepts => refused ⟨disk', written, accepts⟩
      exact ⟨e, next, rest, disk'', by simp [flush, written, failed]⟩

theorem checkpoint_of_accepts (stores : dev.Stores contents)
    (accepts : Accepts dev (queuedWrites s.journal) s.disk) :
    ∃ n t, checkpoint dev s = .ok n t ∧ t.journal.uncheckpointedTxs = [] ∧
      t.journal.startLba = s.journal.startLba ∧ t.journal.sizeBlocks = s.journal.sizeBlocks ∧
      t.journal.head = s.journal.head ∧ contents t.disk =
        overlayAll sectorAt (contents s.disk) ((queuedWrites s.journal).map asSectors) := by
  by_cases empty : s.journal.uncheckpointedTxs = []
  · refine ⟨0, s, by rw [checkpoint, if_pos empty], empty, rfl, rfl, rfl, ?_⟩
    rw [queuedWrites, empty]
    rfl
  · obtain ⟨disk, flushed, changed⟩ := flush_of_accepts stores accepts
    have result : checkpoint dev s = .ok s.journal.uncheckpointedTxs.length
        { journal := { drain s.journal with tail := s.journal.head }, disk } := by
      simp [checkpoint, if_neg empty, flushed]
    exact ⟨_, _, result, rfl, rfl, rfl, rfl, changed⟩

/-- A checkpoint that fails has emptied the queue and left a block unwritten. -/
theorem checkpoint_of_not_accepts (refused : ¬ Accepts dev (queuedWrites s.journal) s.disk) :
    ∃ e t, checkpoint dev s = .error (.error e) t ∧ t.journal.uncheckpointedTxs = [] ∧
      ∃ write, write ∈ unwritten dev (queuedWrites s.journal) s.disk := by
  obtain ⟨e, write, rest, disk, failed⟩ := flush_of_not_accepts refused
  have queued : s.journal.uncheckpointedTxs ≠ [] := by
    intro empty
    rw [queuedWrites, empty] at refused
    exact refused trivial
  have result : checkpoint dev s = .error (.error e) { journal := drain s.journal, disk } := by
    simp [checkpoint, if_neg queued, failed]
  refine ⟨e, _, result, rfl, write, ?_⟩
  rw [unwritten, failed]
  exact mem_cons_self

/-- What is expected of a checkpoint in a state: if it fails, the blocks that have not been
written are still queued, and if it succeeds, every target holds the block that was committed for
it last. -/
def LosesNothing (dev : BlockDevice δ) (contents : δ → UInt64 → Sector) (h : History δ) : Prop :=
  match checkpoint dev h.now with
  | .error .panic _ => False
  | .error (.error _) t => ∀ write ∈ unwritten dev (queuedWrites h.now.journal) h.now.disk,
      ∃ tx ∈ t.journal.uncheckpointedTxs, write ∈ tx.writes
  | .ok _ t => ∀ target data, LastWrite h.committed target data →
      Held sectorAt (contents t.disk) target data.sector

/-- The targets of a transaction are outside the journal, and none of them overlaps another one,
or one that was committed before, without being the same. -/
def ClearTargets (h : History δ) (tx : Transaction) : Prop :=
  ∀ write ∈ tx.writes,
    (∀ p, Position h.now.journal p → Apart sectorAt write.1 (h.now.journal.startLba + p)) ∧
    ∀ other ∈ h.committed ++ tx.writes, write.1 = other.1 ∨ Apart sectorAt write.1 other.1

/-- Calls after which nothing is lost. -/
def Gentle (dev : BlockDevice δ) (h : History δ) : Call → Prop
  | .begin => True
  | .commit tx => ClearTargets h tx
  | .checkpoint => Accepts dev (queuedWrites h.now.journal) h.now.disk

/-- A call that returns, with `Ok` or with `Err`. -/
def Ends (dev : BlockDevice δ) (h : History δ) (call : Call) (h' : History δ) : Prop :=
  Returns dev h call h' ∨ Fails dev h call h'

/-- Committed writes are those that have reached their targets and then those in the queue. -/
structure Accounted (contents : δ → UInt64 → Sector) (h : History δ) : Prop where
  position : Position h.now.journal h.now.journal.head
  outside : ∀ write ∈ h.committed, ∀ p, Position h.now.journal p →
    Apart sectorAt write.1 (h.now.journal.startLba + p)
  separate : ∀ write ∈ h.committed, ∀ other ∈ h.committed,
    write.1 = other.1 ∨ Apart sectorAt write.1 other.1
  written : ∃ done, h.committed = done ++ queuedWrites h.now.journal ∧
    ∀ a block, LastWrite (done.map asSectors) a block →
      Held sectorAt (contents h.now.disk) a block

theorem Accounted.start (startLba sizeBlocks : UInt64) (disk : δ) :
    Accounted contents (.start startLba sizeBlocks disk) where
  position := .inl rfl
  outside := by simp [History.start]
  separate := by simp [History.start]
  written := ⟨[], rfl, fun a block last => absurd last.mem (by simp)⟩

theorem Accounted.held_of_grown (accounted : Accounted contents h) (grown : Grown contents h.now t)
    {done : List Write} (known : ∀ write ∈ done, write ∈ h.committed) {a : UInt64}
    {block : Fin 8 → Sector} (last : LastWrite (done.map asSectors) a block)
    (held : Held sectorAt (contents h.now.disk) a block) :
    Held sectorAt (contents t.disk) a block := by
  obtain ⟨write, mem, same⟩ := mem_map.mp last.mem
  cases same
  intro i
  rw [← held i]
  refine grown.outside _ fun p position j => ?_
  exact (accounted.outside write (known write mem) p position).symm j i

theorem Accounted.of_grown (accounted : Accounted contents h) (grown : Grown contents h.now t) :
    Accounted contents { h with now := t } where
  position := by
    rw [Position, grown.sizeBlocks]
    exact grown.position
  outside write mem p position := by
    rw [Position, grown.sizeBlocks] at position
    rw [grown.startLba]
    exact accounted.outside write mem p position
  separate := accounted.separate
  written := by
    obtain ⟨done, split, held⟩ := accounted.written
    refine ⟨done, by rw [queuedWrites, grown.queue]; exact split, fun a block last => ?_⟩
    refine accounted.held_of_grown grown (fun write mem => ?_) last (held a block last)
    rw [split]
    exact mem_append_left _ mem

theorem Accounted.of_commit (accounted : Accounted contents { h with now := t })
    (clear : ClearTargets { h with now := t } tx) (live : List (Transaction × UInt64)) :
    Accounted contents
      ⟨{ t with journal := enqueue tx t.journal }, h.committed ++ tx.writes, live⟩ where
  position := accounted.position
  outside := by
    refine forall_mem_append.mpr ⟨accounted.outside, fun write mem => (clear write mem).1⟩
  separate := by
    have new := fun write mem => (clear write mem).2
    refine forall_mem_append.mpr ⟨fun write mem => ?_, new⟩
    refine forall_mem_append.mpr ⟨accounted.separate write mem, fun other known => ?_⟩
    exact (new other known write (mem_append_left _ mem)).imp Eq.symm Apart.symm
  written := by
    obtain ⟨done, split, held⟩ := accounted.written
    refine ⟨done, ?_, held⟩
    rw [show h.committed = done ++ queuedWrites t.journal from split, queuedWrites, queuedWrites,
      enqueue, flatMap_append, flatMap_singleton, append_assoc]

theorem Accounted.of_checkpoint (accounted : Accounted contents h)
    (queue : t.journal.uncheckpointedTxs = []) (start : t.journal.startLba = h.now.journal.startLba)
    (size : t.journal.sizeBlocks = h.now.journal.sizeBlocks)
    (head : t.journal.head = h.now.journal.head)
    (changed : contents t.disk = overlayAll sectorAt (contents h.now.disk)
      ((queuedWrites h.now.journal).map asSectors)) : Accounted contents ⟨t, h.committed, []⟩ where
  position := by
    rw [Position, head, size]
    exact accounted.position
  outside write mem p position := by
    rw [Position, size] at position
    rw [start]
    exact accounted.outside write mem p position
  separate := accounted.separate
  written := by
    obtain ⟨done, split, held⟩ := accounted.written
    refine ⟨h.committed, by rw [queuedWrites, queue]; simp, fun a block last => ?_⟩
    rw [split, map_append] at last
    rw [changed]
    refine held_overlayAll_of_last sectorAt_injective ?_ held last
    rw [← map_append, ← split]
    exact forall_mem_map.mpr fun write mem =>
      forall_mem_map.mpr fun other known => accounted.separate write mem other known

theorem ClearTargets.of_grown (clear : ClearTargets h tx) (grown : Grown contents h.now t) :
    ClearTargets { h with now := t } tx := by
  intro write mem
  obtain ⟨outside, separate⟩ := clear write mem
  refine ⟨fun p position => ?_, separate⟩
  rw [Position, grown.sizeBlocks] at position
  rw [grown.startLba]
  exact outside p position

theorem Accounted.of_returns (stores : dev.Stores contents) {h' : History δ}
    (gentle : Gentle dev h call) (returns : Returns dev h call h')
    (accounted : Accounted contents h) : Accounted contents h' := by
  obtain ⟨now, performed, rfl⟩ := returns
  cases call with
  | begin =>
    cases performed
    exact ⟨accounted.position, accounted.outside, accounted.separate, accounted.written⟩
  | commit tx =>
    rw [perform] at performed
    rw [History.after]
    split
    · rename_i empty
      rw [commit, if_pos empty] at performed
      cases performed
      exact accounted
    · rename_i nonempty
      obtain ⟨u, grown, rfl, -⟩ := commit_ok stores nonempty accounted.position performed
      have clear : ClearTargets h tx := gentle
      exact (accounted.of_grown grown).of_commit (clear.of_grown grown) _
  | checkpoint =>
    obtain ⟨n, t, result, queue, start, size, head, changed⟩ := checkpoint_of_accepts stores gentle
    rw [perform, bind_of_ok result] at performed
    cases performed
    exact accounted.of_checkpoint queue start size head changed

theorem Accounted.of_fails (stores : dev.Stores contents) {h' : History δ}
    (gentle : Gentle dev h call) (fails : Fails dev h call h') (accounted : Accounted contents h) :
    Accounted contents h' := by
  obtain ⟨e, now, performed, rfl⟩ := fails
  cases call with
  | begin => cases performed
  | commit tx => exact accounted.of_grown (commit_error stores accounted.position performed)
  | checkpoint =>
    obtain ⟨n, t, result, -⟩ := checkpoint_of_accepts stores gentle
    rw [perform, bind_of_ok result] at performed
    cases performed

theorem Accounted.of_run (stores : dev.Stores contents) {startLba sizeBlocks : UInt64}
    {calls : List Call}
    (run : Run (Guarded (Gentle dev) (Ends dev)) (.start startLba sizeBlocks disk) calls h) :
    Accounted contents h :=
  run.invariant
    (fun ⟨gentle, ends⟩ accounted => ends.elim (accounted.of_returns stores gentle)
      (accounted.of_fails stores gentle))
    (.start startLba sizeBlocks disk)

/-- In a run of calls that meet the condition, the next checkpoint loses nothing exactly if the
device accepts all of its writes. -/
theorem losesNothing_iff_accepts (stores : dev.Stores contents) {startLba sizeBlocks : UInt64}
    {disk : δ} {calls : List Call} {h : History δ}
    (run : Run (Guarded (Gentle dev) (Ends dev)) (.start startLba sizeBlocks disk) calls h) :
    LosesNothing dev contents h ↔ Accepts dev (queuedWrites h.now.journal) h.now.disk := by
  constructor
  · intro lossless
    by_contra refused
    obtain ⟨e, t, result, queue, write, missing⟩ := checkpoint_of_not_accepts refused
    simp only [LosesNothing, result] at lossless
    obtain ⟨tx, queued, -⟩ := lossless write missing
    rw [queue] at queued
    cases queued
  · intro accepts
    obtain ⟨n, t, result, queue, start, size, head, changed⟩ := checkpoint_of_accepts stores accepts
    have after := (Accounted.of_run stores run).of_checkpoint queue start size head changed
    obtain ⟨done, split, held⟩ := after.written
    simp only [LosesNothing, result]
    intro target data last
    refine held target data.sector ?_
    have all : h.committed = done := by simpa [queuedWrites, queue] using split
    rw [← all]
    exact last.map Block.sector

/-! ## A disk in memory -/

/-- Sectors in memory, and how many more writes the device accepts. -/
abbrev MemoryDisk := (UInt64 → Sector) × ℕ

def memoryDevice : BlockDevice MemoryDisk where
  writeBlocks lba block := fun disk =>
    match disk.2 with
    | 0 => .error "I/O error" disk
    | budget + 1 => .ok () (overlay sectorAt disk.1 lba block.sector, budget)

theorem memoryDevice_stores : memoryDevice.Stores Prod.fst where
  ok {lba block d d'} written := by
    obtain ⟨sectors, budget⟩ := d
    cases budget <;> cases written
    rfl
  error {lba block d e d'} failed x away := by
    obtain ⟨sectors, budget⟩ := d
    cases budget <;> cases failed
    rfl

def filled (byte : UInt8) : Block := ⟨replicate 4096 byte, length_replicate⟩

def blank : Sector := ⟨replicate 512 0, length_replicate⟩

/-- A transaction that fills the block at sector 5000. -/
def sampleTx : Transaction := ⟨1, [.writeBlock 5000 (filled 1)]⟩

/-- The history after `init` and the commit of a transaction, on a disk that then accepts as many
writes as given. -/
def afterCommit (tx : Transaction) (head : UInt64) (budget : ℕ) : History MemoryDisk where
  now :=
    { journal := { Journal.init 1000 1024 with head, uncheckpointedTxs := [tx] }
      disk := (overlayAll sectorAt (fun _ => blank)
        ((placed (Journal.init 1000 1024) 0 (blocksOf tx tx.writes)).map asSectors), budget) }
  committed := tx.writes
  live := [(tx, 0)]

theorem returns_sampleTx (budget : ℕ) : Returns memoryDevice
    (.start 1000 1024 (fun _ => blank, budget + 3)) (.commit sampleTx)
    (afterCommit sampleTx 3 budget) :=
  ⟨(afterCommit sampleTx 3 budget).now, rfl, rfl⟩

theorem clearTargets_sampleTx (budget : ℕ) :
    ClearTargets (.start 1000 1024 ((fun _ => blank, budget) : MemoryDisk)) sampleTx := by
  intro write mem
  obtain rfl : write = (5000, filled 1) := mem_singleton.mp mem
  refine ⟨fun p position i j shared => ?_, fun other known => .inl ?_⟩
  · have small : p.toNat < 1024 := by
      rcases position with rfl | below
      · decide
      · exact UInt64.lt_iff_toNat_lt.mp below
    have same : (5000 + (i : ℕ)) % 2 ^ 64 = (1000 + p.toNat + j) % 2 ^ 64 := by
      simpa [sectorAt, History.start, Journal.init] using congrArg UInt64.toNat shared
    omega
  · rw [mem_singleton.mp known]

/-- A checkpoint with one write, on a disk that accepts it. -/
theorem losesNothing_sampleTx : LosesNothing memoryDevice Prod.fst (afterCommit sampleTx 3 1) := by
  have run : Run (Guarded (Gentle memoryDevice) (Ends memoryDevice))
      (.start 1000 1024 (fun _ => blank, 4)) [.commit sampleTx] (afterCommit sampleTx 3 1) :=
    .cons ⟨clearTargets_sampleTx _, .inl (returns_sampleTx 1)⟩ (.nil _)
  exact (losesNothing_iff_accepts memoryDevice_stores run).mpr ⟨_, rfl, trivial⟩

/-- A disk that fails after the commit: the checkpoint returns an error, and the block of the
transaction is neither written nor queued. -/
theorem block_lost_by_checkpoint : ¬ ∀ (δ : Type) (dev : BlockDevice δ)
    (contents : δ → UInt64 → Sector), dev.Stores contents →
    ∀ (startLba sizeBlocks : UInt64) (disk : δ) (calls : List Call) (h : History δ),
      Run (Ends dev) (.start startLba sizeBlocks disk) calls h → LosesNothing dev contents h := by
  intro lossless
  have kept := lossless MemoryDisk memoryDevice Prod.fst memoryDevice_stores 1000 1024 _ _
    (afterCommit sampleTx 3 0) (.cons (.inl (returns_sampleTx 0)) (.nil _))
  obtain ⟨tx, queued, -⟩ := kept (5000, filled 1) mem_cons_self
  cases queued

end SmartOs.SmartFs
