/-
# The write-ahead journal

`smartfs/journal.rs`: a transaction is committed by writing a descriptor block, its data blocks
and a commit block to a ring of blocks on the disk, and is queued. A checkpoint writes the queued
blocks to their targets.

The disk is addressed in sectors of 512 bytes, as all block devices of the kernel are: a block of
4096 bytes at sector `s` covers the sectors `s` to `s + 7`. The journal counts in blocks, but
adds its position to the first sector as it is.
-/

import Mathlib.Data.UInt
import SmartOs.CS.Overlay
import SmartOs.Drivers.BlockDevice

namespace SmartOs.SmartFs

open CS Drivers Math

abbrev Block := Bytes 4096

def Block.sector (block : Block) (i : Fin 8) : Sector :=
  ⟨field (i * 512) 512 block.val, length_field (by rw [block.property]; omega)⟩

/-- The `i`th sector of a block. The sum of `u64` numbers wraps around. -/
def sectorAt (lba : UInt64) (i : Fin 8) : UInt64 := lba + UInt64.ofNat i

theorem sectorAt_injective (lba : UInt64) : Function.Injective (sectorAt lba) := by
  have offsets : ∀ i j : Fin 8, UInt64.ofNat i = UInt64.ofNat j → i = j := by decide
  intro i j same
  exact offsets i j ((UInt64.add_right_inj lba).mp same)

/-- `write_blocks` of a device with the state `δ`, for buffers of 4096 bytes. -/
structure BlockDevice (δ : Type) where
  writeBlocks : UInt64 → Block → EStateM String δ Unit

/-- A write that succeeds changes the sectors of the block and no others. One that fails may have
changed some of them, in any way. -/
structure BlockDevice.Stores {δ : Type} (dev : BlockDevice δ) (contents : δ → UInt64 → Sector) :
    Prop where
  ok : ∀ {lba block d d'}, dev.writeBlocks lba block d = .ok () d' →
    contents d' = overlay sectorAt (contents d) lba block.sector
  error : ∀ {lba block d e d'}, dev.writeBlocks lba block d = .error e d' →
    ∀ x, (∀ i, sectorAt lba i ≠ x) → contents d' x = contents d x

/-! ## Transactions -/

inductive JournalOp where
  | writeBlock (targetLba : UInt64) (data : Block)
  | updateInode (inode : UInt64) (metadata : Bytes 256)

structure Transaction where
  id : UInt64
  operations : List JournalOp

/-- The target and the data of a block to be written. -/
abbrev Write := UInt64 × Block

def JournalOp.write? : JournalOp → Option Write
  | .writeBlock targetLba data => some (targetLba, data)
  | .updateInode _ _ => none

def Transaction.writes (tx : Transaction) : List Write := tx.operations.filterMap JournalOp.write?

/-! ## Blocks of the journal -/

def descriptorMagic : UInt32 := 0x4A4F5552
def maxEntries : ℕ := 509

structure DescriptorBlock where
  magic : UInt32
  txId : UInt64
  numEntries : UInt32
  targetLbas : { lbas : List UInt64 // lbas.length = maxEntries }

namespace DescriptorBlock

/-- The packed record, filled up with zeros. -/
def toBlock (desc : DescriptorBlock) : Block :=
  ⟨toLeBytes 4 desc.magic.toNat ++ (toLeBytes 8 desc.txId.toNat ++ (toLeBytes 4
    desc.numEntries.toNat ++ (desc.targetLbas.val.flatMap (fun lba => toLeBytes 8 lba.toNat) ++
      List.replicate 8 0))), by
    simp only [List.length_append, toLeBytes_length, List.length_flatMap, List.map_const',
      List.sum_replicate_nat, desc.targetLbas.property, maxEntries, List.length_replicate]⟩

/-- The targets that the block lists. -/
def listed (desc : DescriptorBlock) : List UInt64 :=
  desc.targetLbas.val.take desc.numEntries.toNat

/-- The record that `commit` builds from the targets it has room for. -/
def ofTargets (txId : UInt64) (targets : List UInt64) : DescriptorBlock where
  magic := descriptorMagic
  txId := txId
  numEntries := UInt32.ofNat (targets.take maxEntries).length
  targetLbas := ⟨targets.take maxEntries ++ List.replicate (maxEntries - targets.length) 0, by
    rw [List.length_append, List.length_take, List.length_replicate]
    omega⟩

end DescriptorBlock

def commitBlock (txId : UInt64) : Block :=
  ⟨[0x43, 0x4F, 0x4D, 0x4D] ++ (toLeBytes 8 txId.toNat ++ List.replicate 4084 0), by
    simp only [List.length_append, toLeBytes_length, List.length_replicate, List.length_cons,
      List.length_nil]⟩

/-- The writes that go into the descriptor. The loop ends at the first one without room. -/
def entries : List JournalOp → (room : ℕ) → List Write
  | [], _ => []
  | .updateInode _ _ :: ops, room => entries ops room
  | .writeBlock _ _ :: _, 0 => []
  | .writeBlock targetLba data :: ops, room + 1 => (targetLba, data) :: entries ops room

/-! ## The journal -/

structure Journal where
  startLba : UInt64
  sizeBlocks : UInt64
  head : UInt64
  tail : UInt64
  nextTxId : UInt64
  uncheckpointedTxs : List Transaction

/-- A journal and the disk it writes to. -/
structure Journaling (δ : Type) where
  journal : Journal
  disk : δ

abbrev JournalM (δ : Type) := EStateM (Abort String) (Journaling δ)

def Journal.init (startLba sizeBlocks : UInt64) : Journal := ⟨startLba, sizeBlocks, 0, 0, 1, []⟩

section Operations

variable {δ : Type} (dev : BlockDevice δ)

def begin : JournalM δ Transaction := fun s =>
  .ok ⟨s.journal.nextTxId, []⟩
    { s with journal := { s.journal with nextTxId := s.journal.nextTxId + 1 } }

def advanceHead (journal : Journal) : Journal :=
  { journal with head := (journal.head + 1) % journal.sizeBlocks }

/-- Write a block at the head and advance it, which panics in a journal without blocks. -/
def append (block : Block) : JournalM δ Unit := fun s =>
  match dev.writeBlocks (s.journal.startLba + s.journal.head) block s.disk with
  | .error e disk => .error (.error e) { s with disk }
  | .ok _ disk =>
    if s.journal.sizeBlocks = 0 then .error .panic { s with disk }
    else .ok () { journal := advanceHead s.journal, disk }

def appendAll : List Block → JournalM δ Unit
  | [] => pure ()
  | block :: blocks => do
    append dev block
    appendAll blocks

def enqueue (tx : Transaction) (journal : Journal) : Journal :=
  { journal with uncheckpointedTxs := journal.uncheckpointedTxs ++ [tx] }

def commit (tx : Transaction) : JournalM δ Unit :=
  if tx.operations = [] then pure ()
  else do
    let kept := entries tx.operations maxEntries
    append dev (DescriptorBlock.ofTargets tx.id (kept.map Prod.fst)).toBlock
    appendAll dev (kept.map Prod.snd)
    append dev (commitBlock tx.id)
    modify fun s => { s with journal := enqueue tx s.journal }

/-- Write blocks to their targets until one fails: the error, and what has not been written. -/
def flush : List Write → δ → Option (String × List Write) × δ
  | [], disk => (none, disk)
  | write :: writes, disk =>
    match dev.writeBlocks write.1 write.2 disk with
    | .ok _ disk => flush writes disk
    | .error e disk => (some (e, write :: writes), disk)

def queuedWrites (journal : Journal) : List Write :=
  journal.uncheckpointedTxs.flatMap Transaction.writes

/-- The iterator that drains the queue empties it when it is dropped, also on an error. -/
def drain (journal : Journal) : Journal := { journal with uncheckpointedTxs := [] }

def checkpoint : JournalM δ ℕ := fun s =>
  if s.journal.uncheckpointedTxs = [] then .ok 0 s
  else
    match flush dev (queuedWrites s.journal) s.disk with
    | (some (e, _), disk) => .error (.error e) { journal := drain s.journal, disk }
    | (none, disk) => .ok s.journal.uncheckpointedTxs.length
        { journal := { drain s.journal with tail := s.journal.head }, disk }

end Operations

/-! ## Calls -/

inductive Call where
  | begin
  | commit (tx : Transaction)
  | checkpoint

def perform {δ : Type} (dev : BlockDevice δ) : Call → JournalM δ Unit
  | .begin => do
    let _ ← begin
    pure ()
  | .commit tx => commit dev tx
  | .checkpoint => do
    let _ ← checkpoint dev
    pure ()

/-- A journal with what happened to it: the writes of all transactions that were committed, in
order, and the transactions since the last checkpoint, each with the head it was committed at. -/
structure History (δ : Type) where
  now : Journaling δ
  committed : List Write
  live : List (Transaction × UInt64)

def History.start {δ : Type} (startLba sizeBlocks : UInt64) (disk : δ) : History δ :=
  ⟨⟨Journal.init startLba sizeBlocks, disk⟩, [], []⟩

/-- The history after a call that succeeded. -/
def History.after {δ : Type} (h : History δ) (now : Journaling δ) : Call → History δ
  | .begin => { h with now }
  | .commit tx =>
    if tx.operations = [] then { h with now }
    else ⟨now, h.committed ++ tx.writes, h.live ++ [(tx, h.now.journal.head)]⟩
  | .checkpoint => ⟨now, h.committed, []⟩

def Returns {δ : Type} (dev : BlockDevice δ) (h : History δ) (call : Call)
    (h' : History δ) : Prop :=
  ∃ now, perform dev call h.now = .ok () now ∧ h' = h.after now call

def Fails {δ : Type} (dev : BlockDevice δ) (h : History δ) (call : Call) (h' : History δ) : Prop :=
  ∃ e now, perform dev call h.now = .error (.error e) now ∧ h' = { h with now }

end SmartOs.SmartFs
