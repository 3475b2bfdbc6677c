import JarvisOS.Foundations.ByteMemory
import JarvisOS.Physical.FrameAllocator

/-!
# Two-level page tables

The page directory and the page tables are frames of the memory they describe: entry `i` of either
is the word at its address plus `4 * i`. `getTable` finds the table for an address and creates it
on demand from a frame of the allocator; `pagingMap`, `pagingUnmap` and `pagingTranslate` work on
its entries, and `pagingInit` builds the identity map. The kernel reaches directory and tables
through the identity map, so that it reads and writes them at their physical addresses.
-/

namespace JarvisOS

open Foundations

/-- `PAGE_SIZE`. -/
abbrev pageSize : ℕ := 4096

/-- `PAGE_PRESENT`. -/
abbrev pagePresent : ℕ := 0x1

/-- `PAGE_WRITE`. -/
abbrev pageWrite : ℕ := 0x2

/-- `PAGE_UNMAPPED`. -/
abbrev pageUnmapped : ℕ := 0xFFFFFFFF

/-- `IDENTITY_BYTES`. -/
abbrev identityBytes : ℕ := 16 * 1024 * 1024

/-- `DIR_INDEX`. -/
def dirIndex (v : ℕ) : ℕ := v >>> 22

/-- `TBL_INDEX`. -/
def tblIndex (v : ℕ) : ℕ := (v >>> 12) &&& 0x3FF

/-- `FRAME_OF`. -/
def frameOf (e : ℕ) : ℕ := e &&& 0xFFFFF000

/-- What the console was asked to print. -/
inductive Output
  | str (s : String)
  | hex (n : ℕ)
  deriving DecidableEq

/-- Physical memory, the frame allocator, and the variables of the paging code. -/
structure Paging where
  ram : Mem
  pmm : Pmm
  pageDirectory : ℕ
  dirPhys : ℕ
  identityEnd : ℕ
  tableCount : ℕ
  mappedPages : ℕ
  enabled : ℕ

namespace Paging

/-- `page_directory[di]`. -/
def dirEntry (s : Paging) (di : ℕ) : ℕ := s.ram.read32 (s.pageDirectory + 4 * di)

/-- `table[ti]`, for the table at `t`. -/
def tblEntry (s : Paging) (t ti : ℕ) : ℕ := s.ram.read32 (t + 4 * ti)

/-- `get_table`: the address of the table, or `0`. -/
def getTable (virt : ℕ) (create : Bool) (s : Paging) : ℕ × Paging :=
  let di := dirIndex virt
  if s.dirEntry di &&& pagePresent ≠ 0 then (frameOf (s.dirEntry di), s)
  else if !create then (0, s)
  else
    let frame := s.pmm.pmmAllocFrame.1
    let s := { s with pmm := s.pmm.pmmAllocFrame.2 }
    if frame = 0 then (0, s)
    -- a table above the identity window could not be reached once paging is on
    else if frame ≥ s.identityEnd then (0, { s with pmm := s.pmm.pmmFreeFrame frame })
    else (frame, { s with
      ram := (s.ram.memset frame 0 pageSize).write32 (s.pageDirectory + 4 * di)
        (frame ||| pagePresent ||| pageWrite)
      tableCount := u32 (s.tableCount + 1) })

/-- `paging_map`: `1` if the page was mapped, `0` if there is no table for it. -/
def pagingMap (virt phys flags : ℕ) (s : Paging) : ℕ × Paging :=
  let table := (s.getTable virt true).1
  let s := (s.getTable virt true).2
  if table = 0 then (0, s)
  else
    let ti := tblIndex virt
    (1, { s with
      mappedPages :=
        if s.tblEntry table ti &&& pagePresent = 0 then u32 (s.mappedPages + 1) else s.mappedPages
      ram := s.ram.write32 (table + 4 * ti) (frameOf phys ||| (flags &&& 0xFFF) ||| pagePresent) })

/-- `paging_unmap`: `1` if the page was unmapped, `0` if it was not mapped. -/
def pagingUnmap (virt : ℕ) (s : Paging) : ℕ × Paging :=
  let table := (s.getTable virt false).1
  let s := (s.getTable virt false).2
  if table = 0 then (0, s)
  else
    let ti := tblIndex virt
    if s.tblEntry table ti &&& pagePresent = 0 then (0, s)
    else (1, { s with
      ram := s.ram.write32 (table + 4 * ti) 0
      mappedPages := sub32 s.mappedPages 1 })

/-- `paging_translate`: the physical address, or `PAGE_UNMAPPED`. -/
def pagingTranslate (virt : ℕ) (s : Paging) : ℕ :=
  let table := (s.getTable virt false).1
  let s := (s.getTable virt false).2
  if table = 0 then pageUnmapped
  else
    let entry := s.tblEntry table (tblIndex virt)
    if entry &&& pagePresent = 0 then pageUnmapped
    else frameOf entry ||| (virt &&& 0xFFF)

/-- The loop of `paging_init` from `addr` on, with `pages` pages still to map: whether every page
was mapped. -/
def identityLoop : ℕ → ℕ → Paging → Bool × Paging
  | 0, _, s => (true, s)
  | pages + 1, addr, s =>
    let s' := (s.pagingMap addr addr pageWrite).2
    if (s.pagingMap addr addr pageWrite).1 = 0 then (false, s')
    else identityLoop pages (u32 (addr + pageSize)) s'

/-- `identity_end` as `paging_init` sets it, for the highest address of the memory map. -/
def identityWindow (highest : ℕ) : ℕ :=
  if highest ≠ 0 ∧ highest < identityBytes then highest &&& lnot32 (pageSize - 1) else identityBytes

/-- `paging_init`, with what it prints. The loop runs once for every page below `identity_end`. -/
def pagingInit (highest : ℕ) (s : Paging) : List Output × Paging :=
  let dir := s.pmm.pmmAllocFrame.1
  let s := { s with
    identityEnd := identityWindow highest
    pmm := s.pmm.pmmAllocFrame.2
    dirPhys := dir }
  if dir = 0 then ([.str "FATAL: no frame for the page directory.\n"], s)
  else
    let s := { s with pageDirectory := dir, ram := s.ram.memset dir 0 pageSize }
    let r := identityLoop (s.identityEnd / pageSize) 0 s
    if r.1 then ([], { r.2 with enabled := 1 })
    else ([.str "FATAL: ran out of frames building the identity map.\n"], r.2)

/-- The variables of the paging code before `paging_init`. -/
def zeroed (ram : Mem) (pmm : Pmm) : Paging := ⟨ram, pmm, 0, 0, 0, 0, 0, 0⟩

end Paging

end JarvisOS
