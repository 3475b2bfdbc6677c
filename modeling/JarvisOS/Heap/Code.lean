import JarvisOS.Foundations.Resumption
import JarvisOS.Physical.Paging

/-!
# The kernel heap, access by access

`kmalloc` and `kfree` as programs of atomic actions: each read or write of a block header, of
`head`, `brk` or `ready`, and each call of the frame allocator, of paging or of the console is one
action. Run to completion they are the source's functions; an interrupt can be let in between any
two of their actions.

The heap reads and writes virtual memory in the window from `heapStart` on. The frame allocator and
the page tables stand behind it as a `Backing`: their state is `σ`, and mapping a page puts the
bytes of its frame into the window.
-/

namespace JarvisOS

open Foundations

/-- `HEAP_START`. -/
abbrev heapStart : ℕ := 0xC0000000

/-- `HEAP_INITIAL`. -/
abbrev heapInitial : ℕ := 64 * 1024

/-- `HEAP_MAX`. -/
abbrev heapMax : ℕ := 4 * 1024 * 1024

/-- `BLOCK_MAGIC`, "JARV". -/
abbrev blockMagic : ℕ := 0x4A415256

/-- `MIN_SPLIT`. -/
abbrev minSplit : ℕ := 16

/-- `sizeof(block_t)`: the words `magic`, `size`, `next` and `free`, in this order. -/
abbrev headerSize : ℕ := 16

/-- More iterations than a list of blocks inside the window can need. -/
abbrev listFuel : ℕ := 2 ^ 18 + 1

/-- The actions of the heap code. -/
inductive HeapOp
  | getReady
  | setReady (v : ℕ)
  | getHead
  | setHead (p : ℕ)
  | getBrk
  | setBrk (v : ℕ)
  /-- Read the word at a virtual address. -/
  | load (a : ℕ)
  /-- Write the word at a virtual address. -/
  | store (a v : ℕ)
  | pmmAllocFrame
  | pmmFreeFrame (frame : ℕ)
  | pagingMap (virt phys flags : ℕ)
  | print (s : String)
  | printHex (n : ℕ)
  deriving DecidableEq

/-- Heap code with result in `α`. -/
abbrev HeapM (α : Type) : Type := Prog HeapOp ℕ α

open HeapOp Prog

/-! ## Block headers -/

/-- `b->magic`. -/
def getMagic (b : ℕ) : HeapM ℕ := perform (load b)

/-- `b->size`. -/
def getSize (b : ℕ) : HeapM ℕ := perform (load (u32 (b + 4)))

/-- `b->next`. -/
def getNext (b : ℕ) : HeapM ℕ := perform (load (u32 (b + 8)))

/-- `b->free`. -/
def getFree (b : ℕ) : HeapM ℕ := perform (load (u32 (b + 12)))

/-- `b->magic = v`. -/
def setMagic (b v : ℕ) : HeapM ℕ := perform (store b v)

/-- `b->size = v`. -/
def setSize (b v : ℕ) : HeapM ℕ := perform (store (u32 (b + 4)) v)

/-- `b->next = v`. -/
def setNext (b v : ℕ) : HeapM ℕ := perform (store (u32 (b + 8)) v)

/-- `b->free = v`. -/
def setFree (b v : ℕ) : HeapM ℕ := perform (store (u32 (b + 12)) v)

/-! ## Growing -/

/-- `align8`. -/
def align8 (n : ℕ) : ℕ := u32 (n + 7) &&& lnot32 7

/-- The rounding of a growth to whole pages. -/
def roundPages (bytes : ℕ) : ℕ := u32 (bytes + pageSize - 1) &&& lnot32 (pageSize - 1)

/-- The loop of `grow_mapping` from offset `off` on, with `pages` pages still to map. -/
def growLoop : ℕ → ℕ → HeapM ℕ
  | 0, _ => ret 1
  | pages + 1, off => do
    let frame ← perform pmmAllocFrame
    if frame = 0 then return 0
    let brk ← perform getBrk
    let mapped ← perform (pagingMap (u32 (brk + off)) frame pageWrite)
    if mapped = 0 then
      let _ ← perform (pmmFreeFrame frame)
      return 0
    growLoop pages (u32 (off + pageSize))

/-- `grow_mapping`. After rounding, `bytes` is a whole number of pages, which is how often the loop
runs. -/
def growMapping (bytes : ℕ) : HeapM ℕ := do
  let bytes := roundPages bytes
  let brk ← perform getBrk
  if u32 (brk + bytes) > u32 (heapStart + heapMax) then return 0
  let grown ← growLoop (bytes / pageSize) 0
  if grown = 0 then return 0
  let brk ← perform getBrk
  let _ ← perform (setBrk (u32 (brk + bytes)))
  return 1

/-! ## Coalescing -/

/-- The condition of `coalesce`, with its short circuits. -/
def mergeable (b endOfB : ℕ) : HeapM Bool := do
  let free ← getFree b
  if free = 0 then return false
  let next ← getNext b
  let nextFree ← getFree next
  if nextFree = 0 then return false
  let next ← getNext b
  return endOfB = next

/-- `b->size += sizeof(block_t) + b->next->size; b->next = b->next->next;` -/
def swallow (b : ℕ) : HeapM Unit := do
  let next ← getNext b
  let nextSize ← getSize next
  let size ← getSize b
  let _ ← setSize b (u32 (size + u32 (headerSize + nextSize)))
  let next ← getNext b
  let nextNext ← getNext next
  let _ ← setNext b nextNext

/-- The loop of `coalesce` at block `b`. -/
def coalesceLoop : ℕ → ℕ → HeapM Unit
  | 0, _ => spin
  | fuel + 1, b => do
    if b = 0 then return ()
    let next ← getNext b
    if next = 0 then return ()
    let size ← getSize b
    let endOfB := u32 (u32 (b + headerSize) + size)
    let merge ← mergeable b endOfB
    if merge then
      swallow b
      coalesceLoop fuel b
    else
      let next ← getNext b
      coalesceLoop fuel next

/-- `coalesce`. -/
def coalesce : HeapM Unit := do
  let b ← perform getHead
  coalesceLoop listFuel b

/-! ## Allocation -/

/-- `heap_init`. -/
def heapInit : HeapM Unit := do
  let _ ← perform (setBrk heapStart)
  let grown ← growMapping heapInitial
  if grown = 0 then
    let _ ← perform (print "FATAL: could not map the kernel heap.\n")
    return ()
  let _ ← perform (setHead heapStart)
  let head ← perform getHead
  let _ ← setMagic head blockMagic
  let brk ← perform getBrk
  let _ ← setSize head (sub32 (sub32 brk heapStart) headerSize)
  let _ ← setNext head 0
  let _ ← setFree head 1
  let _ ← perform (setReady 1)

/-- The loop that walks to the last block from `tail` on. -/
def tailLoop : ℕ → ℕ → HeapM ℕ
  | 0, _ => spin
  | fuel + 1, tail => do
    let next ← getNext tail
    if next = 0 then return tail
    let next ← getNext tail
    tailLoop fuel next

/-- `want` in `extend_heap`: the bytes by which it grows the heap for a payload. -/
def wantBytes (payload : ℕ) : ℕ :=
  let want := u32 (payload + headerSize)
  if want < pageSize * 4 then pageSize * 4 else want

/-- The end of `extend_heap`, once the mapping has grown: make a block of the new pages and append
it to the list. -/
def appendBlock (oldBrk : ℕ) : HeapM ℕ := do
  let _ ← setMagic oldBrk blockMagic
  let brk ← perform getBrk
  let _ ← setSize oldBrk (sub32 (sub32 brk oldBrk) headerSize)
  let _ ← setNext oldBrk 0
  let _ ← setFree oldBrk 1
  let head ← perform getHead
  let tail ← tailLoop listFuel head
  let _ ← setNext tail oldBrk
  coalesce
  return 1

/-- `extend_heap`. -/
def extendHeap (payload : ℕ) : HeapM ℕ := do
  let oldBrk ← perform getBrk
  let grown ← growMapping (wantBytes payload)
  if grown = 0 then return 0
  appendBlock oldBrk

theorem extendHeap_eq (payload : ℕ) : extendHeap payload = perform getBrk >>= fun oldBrk =>
    growMapping (wantBytes payload) >>= fun grown =>
      if grown = 0 then ret 0 else appendBlock oldBrk := rfl

/-- What `kmalloc` does with a block that is free and large enough: split it if the rest is big
enough, and hand it out. -/
def takeBlock (b size : ℕ) : HeapM ℕ := do
  let bsize ← getSize b
  if bsize ≥ u32 (u32 (size + headerSize) + minSplit) then
    let rest := u32 (u32 (b + headerSize) + size)
    let _ ← setMagic rest blockMagic
    let bsize ← getSize b
    let _ ← setSize rest (sub32 (sub32 bsize size) headerSize)
    let next ← getNext b
    let _ ← setNext rest next
    let _ ← setFree rest 1
    let _ ← setSize b size
    let _ ← setNext b rest
  let _ ← setFree b 0
  return u32 (b + headerSize)

/-- The condition under which the search of `kmalloc` passes over a block. -/
def unfit (b size : ℕ) : HeapM Bool := do
  let free ← getFree b
  if free = 0 then return true
  let bsize ← getSize b
  return bsize < size

/-- The search of `kmalloc` from block `b` on: the pointer to return, or `none` past the end. -/
def searchLoop (size : ℕ) : ℕ → ℕ → HeapM (Option ℕ)
  | 0, _ => spin
  | fuel + 1, b => do
    if b = 0 then return none
    let skip ← unfit b size
    if skip then
      let next ← getNext b
      searchLoop size fuel next
    else
      let p ← takeBlock b size
      return some p

/-- The two attempts of `kmalloc`, `attempts` of which are left. -/
def attemptLoop (size : ℕ) : ℕ → HeapM ℕ
  | 0 => ret 0
  | attempts + 1 => do
    let head ← perform getHead
    match ← searchLoop size listFuel head with
    | some p => return p
    | none =>
      let extended ← extendHeap size
      if extended = 0 then return 0
      attemptLoop size attempts

/-- `kmalloc`: the address of the payload, or `0`. -/
def kmalloc (size : ℕ) : HeapM ℕ := do
  let ready ← perform getReady
  if ready = 0 then return 0
  if size = 0 then return 0
  attemptLoop (align8 size) 2

/-- `kfree`: `1` if freed, `0` if the pointer was rejected. -/
def kfree (ptr : ℕ) : HeapM ℕ := do
  if ptr = 0 then return 0
  let addr := ptr
  if addr < heapStart + headerSize then
    rejectOutside addr
  else
    let brk ← perform getBrk
    if addr ≥ brk then rejectOutside addr
    else
      let b := sub32 ptr headerSize
      let magic ← getMagic b
      if magic ≠ blockMagic then
        let _ ← perform (print "kfree: bad pointer (no block header) at ")
        let _ ← perform (printHex ptr)
        let _ ← perform (print "\n")
        return 0
      let free ← getFree b
      if free ≠ 0 then
        let _ ← perform (print "kfree: double free at ")
        let _ ← perform (printHex ptr)
        let _ ← perform (print "\n")
        return 0
      let _ ← setFree b 1
      coalesce
      return 1
where
  /-- The message for a pointer that is not inside the heap. -/
  rejectOutside (addr : ℕ) : HeapM ℕ := do
    let _ ← perform (print "kfree: ")
    let _ ← perform (printHex addr)
    let _ ← perform (print " is outside the heap\n")
    return 0

/-! ## Statistics -/

/-- `heap_size`. -/
def heapSize : HeapM ℕ := do
  let brk ← perform getBrk
  return sub32 brk heapStart

/-- The loop of `heap_used`. -/
def usedLoop : ℕ → ℕ → ℕ → HeapM ℕ
  | 0, _, _ => spin
  | fuel + 1, b, used => do
    if b = 0 then return used
    let used := u32 (used + headerSize)
    let free ← getFree b
    if free = 0 then
      let size ← getSize b
      let next ← getNext b
      usedLoop fuel next (u32 (used + size))
    else
      let next ← getNext b
      usedLoop fuel next used

/-- `heap_used`. -/
def heapUsed : HeapM ℕ := do
  let head ← perform getHead
  usedLoop listFuel head 0

/-- `heap_free`. -/
def heapFree : HeapM ℕ := do
  let size ← heapSize
  let used ← heapUsed
  return sub32 size used

/-! ## What the actions do -/

/-- The frame allocator and the page tables as the heap calls them, over their states `σ`, and the
bytes of physical memory. -/
structure Backing (σ : Type) where
  pmmAllocFrame : σ → ℕ × σ
  pmmFreeFrame : ℕ → σ → σ
  pagingMap : ℕ → ℕ → ℕ → σ → ℕ × σ
  physByte : σ → ℕ → UInt8

/-- The state of the heap: the bytes of virtual memory in its window, its variables, the state of
what stands behind it, and what has been printed. -/
structure HeapState (σ : Type) where
  mem : Mem
  head : ℕ
  brk : ℕ
  ready : ℕ
  env : σ
  out : List Output

/-- The window after the page of `virt` has been mapped to the frame of `phys`. -/
def showFrame (m : Mem) (virt phys : ℕ) (bytes : ℕ → UInt8) : Mem := fun a =>
  if a / pageSize = virt / pageSize then bytes (phys / pageSize * pageSize + a % pageSize) else m a

variable {σ : Type}

/-- One action. -/
def heapAct (B : Backing σ) : HeapOp → HeapState σ → ℕ × HeapState σ
  | getReady, s => (s.ready, s)
  | setReady v, s => (0, { s with ready := v })
  | getHead, s => (s.head, s)
  | setHead p, s => (0, { s with head := p })
  | getBrk, s => (s.brk, s)
  | setBrk v, s => (0, { s with brk := v })
  | load a, s => (s.mem.read32 a, s)
  | store a v, s => (0, { s with mem := s.mem.write32 a v })
  | pmmAllocFrame, s =>
    ((B.pmmAllocFrame s.env).1, { s with env := (B.pmmAllocFrame s.env).2 })
  | pmmFreeFrame f, s => (0, { s with env := B.pmmFreeFrame f s.env })
  | pagingMap v p fl, s =>
    let r := B.pagingMap v p fl s.env
    (r.1, { s with
      env := r.2
      mem := if r.1 = 0 then s.mem else showFrame s.mem v p (B.physByte r.2) })
  | print str, s => (0, { s with out := s.out ++ [.str str] })
  | printHex n, s => (0, { s with out := s.out ++ [.hex n] })

/-- The heap's variables before `heap_init`. -/
def HeapState.zeroed (m : Mem) (e : σ) : HeapState σ := ⟨m, 0, 0, 0, e, []⟩

end JarvisOS
