/-
# Address spaces of live processes

The state the memory subsystem keeps for all processes together: physical memory and one
user address space per live process. The events are what processes and the kernel on
their behalf do to it: fork, write faults, user stores, `copy_to_user`, exec and exit.

An event that ends in a kernel panic, or names a process without an address space, has no
successor state. A user store that the page's entry does not allow has no effect of its
own; the write fault it raises is an event in its own right.
-/

import SmartOs.Memory.Cow

namespace SmartOs.Memory

open SmartOs.CS SmartOs.Math

/-- Physical memory and the address spaces of the live processes. -/
structure Kernel extends Phys where
  spaces : ℕ → Option Space
  nextPid : ℕ

/-- A page of a program image: where it goes, with which flags, and its bytes. -/
structure ImagePage where
  page : Page
  flags : PageTableFlags
  contents : ℕ → UInt8

inductive Event where
  | fork (pid : ℕ)
  | cowFault (pid addr : ℕ)
  | store (pid addr : ℕ) (byte : UInt8)
  | copyToUser (pid dstVaddr : ℕ) (src : List UInt8)
  | exec (pid : ℕ) (image : List ImagePage)
  | exit (pid : ℕ)

variable (pml4 : Space)

/-! ## Kernel accesses to user memory -/

/-- The frame and the offset behind a user address. -/
def translateUserAddr (addr : ℕ) : Option (ℕ × ℕ) :=
  if addr ≥ userEnd then none
  else (pml4.lookup (pageOf addr)).map fun pte => (pte.frame, pageOffset addr)

/-- Overwrite the bytes of a frame from `offset` on. -/
def writeBytes (data : ℕ → ℕ → UInt8) (frame offset : ℕ) (bytes : List UInt8) : ℕ → ℕ → UInt8 :=
  Function.update data frame fun i =>
    if offset ≤ i then bytes.getD (i - offset) (data frame i) else data frame i

/-- The loop of `copy_to_user`: one round per page. It stops at the first address that is
not mapped and keeps what it has written so far. -/
def copyChunks : (rounds dstVaddr : ℕ) → List UInt8 → (ℕ → ℕ → UInt8) → (ℕ → ℕ → UInt8)
  | 0, _, _, data => data
  | _, _, [], data => data
  | rounds + 1, dstVaddr, src, data =>
    match translateUserAddr pml4 dstVaddr with
    | none => data
    | some (frame, offset) =>
      let bytesToCopy := min (4096 - offset) src.length
      copyChunks rounds (dstVaddr + bytesToCopy) (src.drop bytesToCopy)
        (writeBytes data frame offset (src.take bytesToCopy))

/-- Copy `src` to user space. Every round copies a byte at least, so there are no more
rounds than bytes. -/
def copyToUser (dstVaddr : ℕ) (src : List UInt8) (data : ℕ → ℕ → UInt8) : ℕ → ℕ → UInt8 :=
  copyChunks pml4 src.length dstVaddr src data

/-! ## Loading a program -/

/-- Map one page of an image on a fresh frame. -/
def mapImagePage (image : ImagePage) (pml4 : Space) (phys : Phys) : Option (Space × Phys) :=
  match phys.frames.allocFrame with
  | (none, _) => none
  | (some frame, frames) =>
    match mapPage pml4 image.page frame image.flags frames with
    -- `handle_exec` unwraps the error
    | (_, _, false) => none
    | (pml4, frames, true) =>
      some (pml4, { phys with frames, data := Function.update phys.data frame image.contents })

theorem mapImagePage_eq_some {image : ImagePage} {pml4 pml4' : Space} {phys phys' : Phys}
    (mapped : mapImagePage image pml4 phys = some (pml4', phys')) :
    ∃ frame frames, phys.frames.allocFrame = (some frame, frames) ∧
      mapPage pml4 image.page frame image.flags frames = (pml4', phys'.frames, true) ∧
      phys'.refs = phys.refs := by
  unfold mapImagePage at mapped
  cases called : phys.frames.allocFrame with
  | mk result frames =>
    cases result with
    | none => simp [called] at mapped
    | some frame =>
      refine ⟨frame, frames, rfl, ?_⟩
      cases inserted : mapPage pml4 image.page frame image.flags frames with
      | mk tree rest =>
        obtain ⟨frames', done⟩ := rest
        cases done with
        | false => simp [called, inserted] at mapped
        | true =>
          simp only [called, inserted] at mapped
          obtain ⟨rfl, rfl⟩ := mapped
          exact ⟨rfl, rfl⟩

/-- Map the pages of an image; the first failure panics. -/
def loadImage : List ImagePage → Space → Phys → Option (Space × Phys)
  | [], pml4, phys => some (pml4, phys)
  | image :: rest, pml4, phys =>
    (mapImagePage image pml4 phys).bind fun (pml4, phys) => loadImage rest pml4 phys

/-! ## Events -/

namespace Kernel

variable (s : Kernel) (pid : ℕ)

/-- The state with physical memory and one process's space replaced. -/
def withSpace (space : Option Space) (phys : Phys) : Kernel :=
  { s with toPhys := phys, spaces := Function.update s.spaces pid space }

/-- `handle_fork`. -/
def fork (pml4 : Space) : Option Kernel :=
  (cowFork pml4 s.frames s.refs).map fun st =>
    { s with
      frames := st.frames
      refs := st.refs
      spaces := Function.update (Function.update s.spaces pid (some st.parent)) s.nextPid
        (some st.child)
      nextPid := s.nextPid + 1 }

/-- The page fault handler on a write to a present page. -/
def cowFault (pml4 : Space) (addr : ℕ) : Kernel :=
  if addr ≥ userEnd then s
  else
    match handleCowFault pml4 addr s.toPhys with
    -- the fault was not handled here; what the kernel does then is another event
    | none => s
    | some (pml4, phys) => s.withSpace pid (some pml4) phys

/-- The entry that lets user code write to the address. The entries of the tables on the way have
to allow it as well. -/
def writablePte (addr : ℕ) : Option Pte :=
  if addr ≥ userEnd then none
  else (pml4.lookup (pageOf addr)).filter fun pte =>
    pte.flags.writable && pte.flags.userAccessible && pml4.isOpen (pageOf addr)

/-- A store instruction of a user program. -/
def store (pml4 : Space) (addr : ℕ) (byte : UInt8) : Kernel :=
  match writablePte pml4 addr with
  | none => s
  | some pte => { s with data := writeBytes s.data pte.frame (pageOffset addr) [byte] }

/-- `handle_exec`, from the point where the image has been read. -/
def exec (pml4 : Space) (image : List ImagePage) : Option Kernel :=
  let (pml4, frames) := freeUserPagesOnly pml4 s.frames
  (loadImage image pml4 ⟨frames, s.refs, s.data⟩).map fun (pml4, phys) =>
    s.withSpace pid (some pml4) phys

/-- The memory part of `exit_process`. -/
def exit (pml4 : Space) : Kernel :=
  s.withSpace pid none ⟨freeUserPageTable pml4 s.frames, s.refs, s.data⟩

/-- What an event of a process with address space `pml4` does. -/
def apply (pml4 : Space) : Event → Option Kernel
  | .fork pid => s.fork pid pml4
  | .cowFault pid addr => some (s.cowFault pid pml4 addr)
  | .store _ addr byte => some (s.store pml4 addr byte)
  | .copyToUser _ dstVaddr src => some { s with data := copyToUser pml4 dstVaddr src s.data }
  | .exec pid image => s.exec pid pml4 image
  | .exit pid => some (s.exit pid pml4)

end Kernel

def Event.pid : Event → ℕ
  | .fork pid => pid
  | .cowFault pid _ => pid
  | .store pid _ _ => pid
  | .copyToUser pid _ _ => pid
  | .exec pid _ => pid
  | .exit pid => pid

def Kernel.step (s : Kernel) (e : Event) : Option Kernel :=
  (s.spaces e.pid).bind fun pml4 => s.apply pml4 e

def Kernel.Step (s : Kernel) (e : Event) (t : Kernel) : Prop := s.step e = some t

end SmartOs.Memory
