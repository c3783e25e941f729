/-
# Loading an ELF file

`load_elf` maps the `PT_LOAD` segments of a file into the address space of a new process,
page by page, and then stores the relocations that the dynamic section asks for. Every
field of the headers is an unchecked 64-bit number, and sums of them wrap.

Two things about the machine are parameters. Headers and tables are read through raw
pointers, so a read may leave the file: `around` is what lies there in kernel memory. And a
relocation is stored through the kernel's view of physical memory. As long as its eight bytes
stay in a page of user space they land in the frame of that page. A store to any other mapped
address hits kernel memory or the frame behind that of the page, and may change the page tables
themselves: `Stray` is what it does.
-/

import SmartOs.CS.StateError
import SmartOs.Math.LittleEndian
import SmartOs.Memory.Kernel

namespace SmartOs.Process

open SmartOs.CS SmartOs.Math SmartOs.Memory

/-- The result of arithmetic on `u64` and `usize`, which wraps. -/
def wrap (n : ℕ) : ℕ := n % 2 ^ 64

/-! ## The bytes of a file -/

/-- The bytes of a file, and the kernel memory around them, by the distance from the first
byte. A slice has at most `isize::MAX` bytes. -/
structure ElfData where
  bytes : List UInt8
  around : ℕ → UInt8
  length_lt : bytes.length < 2 ^ 63

namespace ElfData

variable (elf : ElfData)

/-- The byte behind `elf_data.as_ptr().wrapping_add(i)`. -/
def byte (i : ℕ) : UInt8 :=
  elf.bytes.getD (wrap i) (elf.around (wrap i))

/-- The little-endian word of `width` bytes at an offset. -/
def word (offset width : ℕ) : ℕ :=
  ofLeBytes ((List.range width).map fun i => elf.byte (offset + i))

end ElfData

/-- What the loader uses of the file header. -/
structure Elf64Header where
  eIdent : List UInt8
  eType : ℕ
  eMachine : ℕ
  eEntry : ℕ
  ePhoff : ℕ
  ePhentsize : ℕ
  ePhnum : ℕ

/-- What the loader uses of a program header. -/
structure Elf64ProgramHeader where
  pType : ℕ
  pFlags : ℕ
  pOffset : ℕ
  pVaddr : ℕ
  pFilesz : ℕ
  pMemsz : ℕ
  deriving DecidableEq

structure Elf64Rela where
  rOffset : ℕ
  rInfo : ℕ
  rAddend : ℕ

def elfMagic : List UInt8 := [0x7f, 0x45, 0x4c, 0x46]

def ptLoad : ℕ := 1
def ptDynamic : ℕ := 2
def pfX : ℕ := 1
def pfW : ℕ := 2

def dtNull : ℕ := 0
def dtPltrelsz : ℕ := 2
def dtStrtab : ℕ := 5
def dtSymtab : ℕ := 6
def dtRela : ℕ := 7
def dtRelasz : ℕ := 8
def dtRelaent : ℕ := 9
def dtJmprel : ℕ := 23

def rX8664Relative : ℕ := 8
def rX8664GlobDat : ℕ := 6
def rX8664JumpSlot : ℕ := 7
def rX866464 : ℕ := 1

namespace ElfData

variable (elf : ElfData)

def header : Elf64Header where
  eIdent := (List.range 16).map elf.byte
  eType := elf.word 16 2
  eMachine := elf.word 18 2
  eEntry := elf.word 24 8
  ePhoff := elf.word 32 8
  ePhentsize := elf.word 54 2
  ePhnum := elf.word 56 2

def programHeader (offset : ℕ) : Elf64ProgramHeader where
  pType := elf.word offset 4
  pFlags := elf.word (offset + 4) 4
  pOffset := elf.word (offset + 8) 8
  pVaddr := elf.word (offset + 16) 8
  pFilesz := elf.word (offset + 32) 8
  pMemsz := elf.word (offset + 40) 8

def rela (offset : ℕ) : Elf64Rela where
  rOffset := elf.word offset 8
  rInfo := elf.word (offset + 8) 8
  rAddend := elf.word (offset + 16) 8

def phStart (i : ℕ) : ℕ :=
  wrap (elf.header.ePhoff + i * elf.header.ePhentsize)

def programHeaders : List Elf64ProgramHeader :=
  (List.range elf.header.ePhnum).map fun i => elf.programHeader (elf.phStart i)

/-- The headers of the segments to load. -/
def loads : List Elf64ProgramHeader :=
  elf.programHeaders.filter fun ph => ph.pType = ptLoad

/-- The bias of a position-independent executable, from eight random bytes of the TPM if
there is one. -/
def loadBias (random : Option ℕ) : ℕ :=
  if elf.header.eType = 3 then
    match random with
    | none => 0
    | some randVal => (randVal &&& 0xFFFF000) + 0x100000
  else 0

end ElfData

/-! ## The address space -/

/-- The two halves of an address space. -/
inductive Half where
  | user
  | kernel
  deriving DecidableEq

/-- What loading works on. The kernel half is a tree like the user half; a huge page stands
in it as the small pages it consists of, since nothing can be mapped over either. -/
structure AddressSpace where
  tables : Half → Space
  frames : BitmapFrameAllocator
  /-- The bytes of every frame. -/
  data : ℕ → ℕ → UInt8
  /-- The frame of stubs that every dynamically linked process shares. -/
  trampolineFrame : Option ℕ
  /-- The addresses at which relocations have been stored so far. -/
  relocated : List ℕ

/-- Addresses that `VirtAddr::new` takes: bits 48 to 63 repeat bit 47. -/
def Canonical (addr : ℕ) : Prop :=
  addr < userEnd ∨ (2 ^ 64 - userEnd ≤ addr ∧ addr < 2 ^ 64)
  deriving Decidable

def halfOf (addr : ℕ) : Half := if addr < userEnd then .user else .kernel

def AddressSpace.entry (s : AddressSpace) (addr : ℕ) : Option Pte :=
  if Canonical addr then (s.tables (halfOf addr)).lookup (pageOf addr) else none

def AddressSpace.byteAt (s : AddressSpace) (addr : ℕ) : Option UInt8 :=
  (s.entry addr).map fun pte => s.data pte.frame (pageOffset addr)

/-- How loading ends without a result. -/
inductive LoadFailure where
  | error (message : String)
  | panic
  /-- Still in one of the loops over the dynamic section. -/
  | running
  deriving DecidableEq

abbrev Load := EStateM LoadFailure AddressSpace

/-- `VirtAddr::new`. -/
def virtAddr (addr : ℕ) : Load Unit :=
  if Canonical addr then pure () else throw .panic

/-- Map the page of an address in its half. -/
def AddressSpace.mapPage (s : AddressSpace) (addr frame : ℕ) (flags : PageTableFlags) :
    AddressSpace × Bool :=
  let result := Memory.mapPage (s.tables (halfOf addr)) (pageOf addr) frame flags s.frames
  ({ s with
      tables := Function.update s.tables (halfOf addr) result.1
      frames := result.2.1 }, result.2.2)

/-! ## Segments -/

namespace Elf64ProgramHeader

variable (ph : Elf64ProgramHeader) (bias : ℕ)

def segVaddr : ℕ := wrap (ph.pVaddr + bias)

def segEnd : ℕ := wrap (ph.segVaddr bias + ph.pMemsz)

def pageStart : ℕ := ph.segVaddr bias / 4096 * 4096

def pageEnd : ℕ := wrap (ph.segEnd bias + 0xFFF) / 4096 * 4096

def pageCount : ℕ := wrap (ph.pageEnd bias + (2 ^ 64 - ph.pageStart bias)) / 4096

/-- The pages of the segment, by their first address. -/
def pageBases : List ℕ :=
  (List.range (ph.pageCount bias)).map fun j => wrap (ph.pageStart bias + j * 4096)

def pageFlags : PageTableFlags where
  writable := ph.pFlags &&& pfW != 0
  userAccessible := true
  bit9 := false
  noExecute := ph.pFlags &&& pfX == 0

end Elf64ProgramHeader

section Loading

variable (elf : ElfData) (bias : ℕ) (ph : Elf64ProgramHeader) (pageBase : ℕ)

/-- The bytes of the page at `pageBase`: zeroes, and what overlaps of the segment's data.
Data that is not in the file is left out without an error. -/
def pageBytes : Except LoadFailure (ℕ → UInt8) :=
  let copyVstart := max pageBase (ph.segVaddr bias)
  let copyVend := min (wrap (pageBase + 4096)) (wrap (ph.segVaddr bias + ph.pFilesz))
  let destOff := copyVstart - pageBase
  let srcOff := wrap (ph.pOffset + (copyVstart - ph.segVaddr bias))
  let copyLen := copyVend - copyVstart
  if 0 < ph.pFilesz ∧ copyVstart < copyVend ∧ wrap (srcOff + copyLen) ≤ elf.bytes.length then
    -- a slice that ends before it starts
    if wrap (srcOff + copyLen) < srcOff then .error .panic
    else .ok fun o =>
      if destOff ≤ o ∧ o < destOff + copyLen then elf.byte (srcOff + (o - destOff)) else 0
  else .ok fun _ => 0

/-- Allocate, map and fill one page. -/
def loadPage : Load Unit := do
  virtAddr pageBase
  let s ← get
  match s.frames.allocFrame with
  | (none, _) => throw (.error "Out of frames for ELF segment")
  | (some frame, frames) =>
    match ({ s with frames } : AddressSpace).mapPage pageBase frame ph.pageFlags with
    | (s, false) => do
      set s
      throw (.error "Failed to map page")
    | (s, true) =>
      match pageBytes elf bias ph pageBase with
      | .error failure => throw failure
      | .ok contents => set { s with data := Function.update s.data frame contents }

def loadSegment : Load Unit :=
  (ph.pageBases bias).forM (loadPage elf bias ph)

/-- What the loop over the program headers keeps: the highest address of a segment, and
address and size of the dynamic section. -/
structure Scan where
  highest : ℕ
  dynamic : Option (ℕ × ℕ)

/-- One round of the loop over the program headers. -/
def loadHeader (scan : Scan) (i : ℕ) : Load Scan :=
  let ph := elf.programHeader (elf.phStart i)
  if wrap (elf.phStart i + elf.header.ePhentsize) > elf.bytes.length then
    throw (.error "Program header out of bounds")
  -- the sum has wrapped, and the slice from here on does not exist
  else if elf.phStart i > elf.bytes.length then throw .panic
  else if ph.pType = ptDynamic then
    return { scan with dynamic := some (ph.pVaddr, ph.pMemsz) }
  else if ph.pType ≠ ptLoad then
    return scan
  else do
    loadSegment elf bias ph
    return { scan with highest := max scan.highest (ph.segEnd bias) }

end Loading

/-! ## Relocations -/

/-- The eight bytes from an address on lie in one page of user space. -/
def InPage (addr : ℕ) : Prop := addr < userEnd ∧ pageOffset addr + 8 ≤ 4096
  deriving Decidable

/-- What storing a value at an address does, if the bytes do not stay in a page of user space. -/
abbrev Stray := (target value : ℕ) → AddressSpace → AddressSpace

variable (stray : Stray) (symbols : List UInt8 → Option ℕ) (elf : ElfData) (bias fuel : ℕ)

/-- Store eight bytes at an address of the new process, if it is mapped. -/
def storeAt (target value : ℕ) : Load Unit := do
  virtAddr target
  let s ← get
  match s.entry target with
  | none => return ()
  | some pte =>
    let stored : AddressSpace :=
      if InPage target then
        { s with data := writeBytes s.data pte.frame (pageOffset target) (toLeBytes 8 value) }
      else stray target value s
    set { stored with relocated := s.relocated ++ [target] }

/-- The offset in the file of an address of the image; the first segment that has it. -/
def vaddrToFileOff (vaddr : ℕ) : Option ℕ :=
  let inBounds := (List.range elf.header.ePhnum).takeWhile fun i =>
    wrap (elf.phStart i + elf.header.ePhentsize) ≤ elf.bytes.length
  inBounds.findSome? fun i =>
    let ph := elf.programHeader (elf.phStart i)
    if ph.pType = ptLoad ∧ ph.pVaddr ≤ vaddr ∧ vaddr < wrap (ph.pVaddr + ph.pMemsz) then
      some (wrap (ph.pOffset + (vaddr - ph.pVaddr)))
    else none

/-- The entries of the dynamic section that matter. -/
structure Dynamic where
  strtab : Option ℕ
  symtab : Option ℕ
  jmprel : Option ℕ
  pltrelsz : Option ℕ
  rela : Option ℕ
  relasz : Option ℕ
  relaent : Option ℕ

def Dynamic.none : Dynamic := ⟨.none, .none, .none, .none, .none, .none, .none⟩

/-- Note an entry; a later one with the same tag replaces it. -/
def Dynamic.note (entries : Dynamic) (tag value : ℕ) : Dynamic :=
  if tag = dtStrtab then { entries with strtab := some value }
  else if tag = dtSymtab then { entries with symtab := some value }
  else if tag = dtJmprel then { entries with jmprel := some value }
  else if tag = dtPltrelsz then { entries with pltrelsz := some value }
  else if tag = dtRela then { entries with rela := some value }
  else if tag = dtRelasz then { entries with relasz := some value }
  else if tag = dtRelaent then { entries with relaent := some value }
  else entries

/-- The loop over the dynamic section, which both relocation passes have with their own
test for another round. -/
def scanDynamic (fileOff : ℕ) (another : ℕ → Bool) : (fuel offset : ℕ) → Dynamic → Load Dynamic
  | 0, _, _ => throw .running
  | fuel + 1, offset, entries =>
    let at_ := wrap (fileOff + offset)
    let tag := elf.word at_ 8
    if another offset = false ∨ tag = dtNull then return entries
    else scanDynamic fileOff another fuel (wrap (offset + 16))
      (entries.note tag (elf.word (at_ + 8) 8))

/-- The loop over a relocation table, which all passes have with their own test, action
and distance between entries. -/
def relaLoop (tableOff : ℕ) (another : ℕ → Bool) (entrySz : ℕ) (action : Elf64Rela → Load Unit) :
    (fuel offset : ℕ) → Load Unit
  | 0, _ => throw .running
  | fuel + 1, offset =>
    if another offset = false then return ()
    else do
      action (elf.rela (wrap (tableOff + offset)))
      relaLoop tableOff another entrySz action fuel (wrap (offset + entrySz))

/-- The relative relocations, which `load_elf` stores itself, without a look at the size of
the file. -/
def applyRelative (entries : Dynamic) : Load Unit :=
  match entries.rela, entries.relasz, entries.relaent with
  | some rPtr, some rSz, some rEnt =>
    relaLoop elf ((vaddrToFileOff elf rPtr).getD 0) (fun rOff => rOff < rSz) rEnt
      (fun rela =>
        if rela.rInfo % 2 ^ 32 = rX8664Relative then
          storeAt stray (wrap (rela.rOffset + bias)) (wrap (bias + rela.rAddend))
        else return ())
      fuel 0
  | _, _, _ => return ()

/-- The pass of `load_elf` itself, over a position-independent executable only. -/
def relocateRelative (dynVaddr dynSize : ℕ) : Load Unit :=
  if elf.header.eType = 3 then do
    let entries ← scanDynamic elf ((vaddrToFileOff elf dynVaddr).getD 0)
      (fun offset => offset < dynSize) fuel 0 .none
    applyRelative stray elf bias fuel entries
  else return ()

/-- The name that a string table has at an offset. -/
def readStrtab (strtabFileOff nameOff : ℕ) : List UInt8 :=
  let slice := elf.bytes.drop (wrap (strtabFileOff + nameOff))
  if slice.contains 0 then slice.takeWhile (· != 0) else slice.take 256

/-- The value of a relocation. `symbols` gives the address of a symbol, of its stub or in a
loaded library. -/
def resolve (rela : Elf64Rela) (strtabOff symtabOff : Option ℕ) : ℕ :=
  let rType := rela.rInfo % 2 ^ 32
  let symIdx := rela.rInfo / 2 ^ 32
  let symName : List UInt8 :=
    match symtabOff, strtabOff with
    | some stOff, some strOff =>
      let symOff := wrap (stOff + symIdx * 24)
      if wrap (symOff + 24) ≤ elf.bytes.length then readStrtab elf strOff (elf.word symOff 4)
      else []
    | _, _ => []
  if rType = rX8664Relative then wrap (bias + rela.rAddend)
  else if symIdx = 0 then 0
  else if rType = rX8664JumpSlot ∨ rType = rX8664GlobDat then (symbols symName).getD 0
  else if rType = rX866464 then wrap ((symbols symName).getD 0 + rela.rAddend)
  else 0

/-- Store every relocation of a table. -/
def applyRelaTable (tableVa tableSz entrySz : ℕ) (strtabVa symtabVa : Option ℕ) : Load Unit :=
  match vaddrToFileOff elf tableVa with
  | none => return ()
  | some tableOff =>
    let strtabOff := strtabVa.bind (vaddrToFileOff elf)
    let symtabOff := symtabVa.bind (vaddrToFileOff elf)
    relaLoop elf tableOff
      (fun off => wrap (off + 24) ≤ tableSz ∧
        wrap (wrap (tableOff + off) + 24) ≤ elf.bytes.length)
      (max entrySz 24)
      (fun rela =>
        storeAt stray (wrap (rela.rOffset + bias))
          (resolve symbols elf bias rela strtabOff symtabOff))
      fuel 0

def trampolineBase : ℕ := 0x7FFFE000

/-- Map the shared frame of stubs; a failure is ignored. -/
def mapTrampoline : Load Unit := do
  let s ← get
  match s.trampolineFrame with
  | none => return ()
  | some frame => set (s.mapPage trampolineBase frame ⟨false, true, false, false⟩).1

/-- The relocations of the procedure linkage table. -/
def applyPlt (entries : Dynamic) : Load Unit :=
  match entries.jmprel, entries.pltrelsz with
  | some jmprelVa, some pltrelsz =>
    applyRelaTable stray symbols elf bias fuel jmprelVa pltrelsz 24 entries.strtab entries.symtab
  | _, _ => return ()

/-- All other relocations. -/
def applyRela (entries : Dynamic) : Load Unit :=
  match entries.rela, entries.relasz, entries.relaent with
  | some relaVa, some relasz, some relaent =>
    applyRelaTable stray symbols elf bias fuel relaVa relasz relaent entries.strtab
      entries.symtab
  | _, _, _ => return ()

/-- `dynlink::apply`. -/
def applyDynamic (dynVaddr dynSize : ℕ) : Load Unit := do
  mapTrampoline
  match vaddrToFileOff elf dynVaddr with
  | none => return ()
  | some dynFileOff => do
    let entries ← scanDynamic elf dynFileOff
      (fun off => wrap (off + 16) ≤ dynSize ∧
        wrap (wrap (dynFileOff + off) + 16) ≤ elf.bytes.length) fuel 0 .none
    applyPlt stray symbols elf bias fuel entries
    applyRela stray symbols elf bias fuel entries

/-! ## The loader -/

structure LoadedElf where
  entryPoint : ℕ
  highestAddr : ℕ
  isLinux : Bool

/-- Everything that follows the loop over the program headers. -/
def relocate : Option (ℕ × ℕ) → Load Unit
  | none => return ()
  | some (dynVaddr, dynSize) => do
    relocateRelative stray elf bias fuel dynVaddr dynSize
    applyDynamic stray symbols elf bias fuel dynVaddr dynSize

/-- The checks of the file header, and the loop over the program headers. -/
def loadSegments (random : Option ℕ) : Load Scan :=
  if elf.bytes.length < 64 then throw (.error "ELF too small")
  else if elf.header.eIdent.take 4 ≠ elfMagic then throw (.error "Not an ELF file")
  else if elf.header.eIdent.getD 4 0 ≠ 2 then throw (.error "Not ELF64")
  else if elf.header.eMachine ≠ 0x3E then throw (.error "Not x86_64 ELF")
  else (List.range elf.header.ePhnum).foldlM (loadHeader elf (elf.loadBias random)) ⟨0, none⟩

/-- Load a file. Each loop over a table in the file makes at most `fuel` rounds. -/
def loadElf (elf : ElfData) (random : Option ℕ) (symbols : List UInt8 → Option ℕ) (fuel : ℕ) :
    Load LoadedElf := do
  let scan ← loadSegments elf random
  relocate stray symbols elf (elf.loadBias random) fuel scan.dynamic
  return {
    entryPoint := wrap (elf.header.eEntry + elf.loadBias random)
    highestAddr := scan.highest
    isLinux := elf.header.eIdent.getD 7 0 == 0 || elf.header.eIdent.getD 7 0 == 3 }

end SmartOs.Process
