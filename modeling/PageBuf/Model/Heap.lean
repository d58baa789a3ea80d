import Mathlib.Algebra.GroupWithZero.Nat
import PageBuf.Lib.Yields

/-!
# Heap — the objects of the library and the memory they live in

The state every function of the library works on: the `pb_page`, `pb_data`
and buffer objects under their addresses, the malloc'ed blocks, the bytes of
memory, and what the mmap class adds (its allocators, mappings and files).

Addresses are numbers handed out in order, so a freed address is never used
again. `page_end` is embedded in its buffer, and the page object at the
buffer's own address models it. Sizes are `Nat`; the three places where the
code relies on machine arithmetic keep it: `use_count` is a `uint16_t`
(`u16Inc`, `u16Dec`), unsigned subtraction wraps (`wrapSub`), and the data
revision counts its increments, of which a reader sees the number modulo
`2^64` (`Pb.revisionValue`).
-/

namespace Pb

open StateRun

/-! ## Memory -/

/-- A stretch of memory with bounds of its own. -/
inductive Region where
  | null
  | heap (block : Nat)
  | caller (object : Nat)
  | mapped (mapping : Nat)
deriving DecidableEq, Repr

/-- `void *`: a region and the distance from its start. -/
structure Ptr where
  region : Region
  offset : Nat
deriving DecidableEq, Repr

/-- Pointer arithmetic. -/
def Ptr.add (p : Ptr) (n : Nat) : Ptr := { p with offset := p.offset + n }

@[simp] theorem Ptr.add_region (p : Ptr) (n : Nat) : (p.add n).region = p.region := rfl

@[simp] theorem Ptr.add_offset (p : Ptr) (n : Nat) :
    (p.add n).offset = p.offset + n := rfl

@[simp] theorem Ptr.add_zero (p : Ptr) : p.add 0 = p := rfl

theorem Ptr.add_add (p : Ptr) (m n : Nat) : (p.add m).add n = p.add (m + n) := by
  simp [Ptr.add, Nat.add_assoc]

def Ptr.null : Ptr := ⟨.null, 0⟩

/-- `struct pb_data_vec`. -/
structure DataVec where
  base : Ptr
  len : Nat
deriving DecidableEq, Repr

/-- `enum pb_data_responsibility`. -/
inductive Responsibility where
  | owned
  | referenced
deriving DecidableEq, Repr

/-! ## Machine arithmetic -/

/-- `++` on a `uint16_t`. -/
def u16Inc (n : Nat) : Nat := if n = 65535 then 0 else n + 1

/-- `--` on a `uint16_t`. -/
def u16Dec (n : Nat) : Nat := if n = 0 then 65535 else n - 1

/-- A counter that follows a number goes on following it upwards. -/
theorem u16Inc_mod (n : Nat) : u16Inc (n % 65536) = (n + 1) % 65536 := by
  unfold u16Inc
  split <;> omega

/-- A counter that follows a number goes on following it downwards. -/
theorem u16Dec_mod {n : Nat} (hn : 0 < n) : u16Dec (n % 65536) = (n - 1) % 65536 := by
  unfold u16Dec
  split <;> omega

/-- Subtraction on a 64 bit unsigned type. -/
def wrapSub (a b : Nat) : Nat := if b ≤ a then a - b else a + 2 ^ 64 - b

theorem wrapSub_of_le {a b : Nat} (h : b ≤ a) : wrapSub a b = a - b := if_pos h

/-! ## Objects -/

/-- The operations of a `pb_data`, with the fields that `struct pb_mmap_data`
adds to it. -/
inductive DataClass where
  | trivial
  | mmap (mmapAllocator fileOffset : Nat) (obsolete : Bool)
deriving DecidableEq, Repr

/-- `struct pb_data`. -/
structure Data where
  dataVec : DataVec
  responsibility : Responsibility
  useCount : Nat
  operations : DataClass
deriving DecidableEq, Repr

/-- `struct pb_page`; `none` is `NULL`. -/
structure Page where
  dataVec : DataVec := ⟨Ptr.null, 0⟩
  data : Option Nat := none
  prev : Option Nat := none
  next : Option Nat := none
deriving DecidableEq, Repr

/-- `struct pb_buffer_strategy`. -/
structure Strategy where
  pageSize : Nat
  cloneOnWrite : Bool
  fragmentAsTarget : Bool
  rejectsInsert : Bool
  rejectsExtend : Bool
  rejectsRewind : Bool
  rejectsSeek : Bool
  rejectsTrim : Bool
  rejectsWrite : Bool
  rejectsOverwrite : Bool
deriving DecidableEq, Repr

/-- `PB_BUFFER_DEFAULT_PAGE_SIZE` is 4096 in `pb_trivial_buffer_strategy`. -/
def trivialBufferStrategy : Strategy where
  pageSize := 4096
  cloneOnWrite := false
  fragmentAsTarget := false
  rejectsInsert := false
  rejectsExtend := false
  rejectsRewind := false
  rejectsSeek := false
  rejectsTrim := false
  rejectsWrite := false
  rejectsOverwrite := false

/-- `pb_mmap_buffer_strategy`. -/
def mmapBufferStrategy : Strategy where
  pageSize := 4096
  cloneOnWrite := true
  fragmentAsTarget := true
  rejectsInsert := true
  rejectsExtend := false
  rejectsRewind := false
  rejectsSeek := false
  rejectsTrim := false
  rejectsWrite := false
  rejectsOverwrite := false

/-- The operations and the allocator of a buffer: the trivial ones, or those
of an mmap buffer with its own `pb_mmap_allocator`. -/
inductive BufferClass where
  | trivial
  | mmap (mmapAllocator : Nat)
deriving DecidableEq, Repr

/-- `struct pb_trivial_buffer` (and the part of it in `struct
pb_mmap_buffer`). -/
structure Buffer where
  strategy : Strategy
  operations : BufferClass
  dataRevision : Nat := 0
  dataSize : Nat := 0
deriving DecidableEq, Repr

/-- `enum pb_mmap_close_action`. -/
inductive MmapCloseAction where
  | retain
  | remove
deriving DecidableEq, Repr

/-- What a file descriptor stands for. -/
structure Fd where
  file : Nat
  writable : Bool
deriving DecidableEq, Repr

/-- `struct pb_mmap_allocator`. `fileFd` is `none` for -1. `dataTree` lists the `pb_mmap_data` objects
in the hash, the latest first; their keys are their own file offsets. -/
structure MmapAllocator where
  useCount : Nat
  fileFd : Option Fd
  fileHeadOffset : Nat
  dataTree : List Nat
  closeAction : MmapCloseAction
deriving DecidableEq, Repr

/-- What `mmap64` returned: `len` bytes of a file from `offset` on. -/
structure Mapping where
  file : Nat
  offset : Nat
  len : Nat
deriving DecidableEq, Repr

/-- The whole state. `next` is the next unused address and `calls` the
number of requests made so far to the memory allocator and the operating
system. `overread` is set when a copy reads beyond the memory it may read;
such a read answers whatever bytes lie there. -/
structure Heap where
  next : Nat
  calls : Nat
  pages : Nat → Option Page
  datas : Nat → Option Data
  buffers : Nat → Option Buffer
  blocks : Nat → Option Nat
  mem : Region → Nat → UInt8
  callerLen : Nat → Nat
  overread : Bool
  mmapAllocators : Nat → Option MmapAllocator
  mappings : Nat → Option Mapping
  files : Nat → List UInt8
  unlinked : Nat → Bool

/-- How the surroundings answer the `n`th request: whether the memory
allocator grants it, whether the operating system does, and how many bytes a
write takes. -/
structure Env where
  grants : Nat → Bool
  osGrants : Nat → Bool
  accepts : Nat → Nat → Nat

/-- What undefined behaviour or a failed assertion stops a function. -/
inductive Fault where
  | dangling
  | badFree
  | badCast
  | outOfBounds
  | assertion
  | diverges
deriving DecidableEq, Repr

/-- Functions of the library. -/
abbrev PbM := StateT Heap (Except Fault)

/-! ## Reading and updating objects -/

def getPage (p : Nat) : PbM Page := fun h =>
  match h.pages p with
  | some P => .ok (P, h)
  | none => .error .dangling

def getData (d : Nat) : PbM Data := fun h =>
  match h.datas d with
  | some D => .ok (D, h)
  | none => .error .dangling

def getBuffer (b : Nat) : PbM Buffer := fun h =>
  match h.buffers b with
  | some B => .ok (B, h)
  | none => .error .dangling

def getMmapAllocator (a : Nat) : PbM MmapAllocator := fun h =>
  match h.mmapAllocators a with
  | some A => .ok (A, h)
  | none => .error .dangling

def Heap.setPage (h : Heap) (p : Nat) (P : Option Page) : Heap :=
  { h with pages := Function.update h.pages p P }

def Heap.setData (h : Heap) (d : Nat) (D : Option Data) : Heap :=
  { h with datas := Function.update h.datas d D }

def Heap.setBuffer (h : Heap) (b : Nat) (B : Option Buffer) : Heap :=
  { h with buffers := Function.update h.buffers b B }

def Heap.setBlock (h : Heap) (n : Nat) (size : Option Nat) : Heap :=
  { h with blocks := Function.update h.blocks n size }

def Heap.setMmapAllocator (h : Heap) (a : Nat) (A : Option MmapAllocator) : Heap :=
  { h with mmapAllocators := Function.update h.mmapAllocators a A }

def Heap.setMapping (h : Heap) (m : Nat) (M : Option Mapping) : Heap :=
  { h with mappings := Function.update h.mappings m M }

def Heap.setFile (h : Heap) (f : Nat) (bytes : List UInt8) : Heap :=
  { h with files := Function.update h.files f bytes }

def modifyPage (p : Nat) (f : Page → Page) : PbM Unit := do
  let P ← getPage p
  modify (·.setPage p (some (f P)))

def modifyData (d : Nat) (f : Data → Data) : PbM Unit := do
  let D ← getData d
  modify (·.setData d (some (f D)))

def modifyBuffer (b : Nat) (f : Buffer → Buffer) : PbM Unit := do
  let B ← getBuffer b
  modify (·.setBuffer b (some (f B)))

def modifyMmapAllocator (a : Nat) (f : MmapAllocator → MmapAllocator) : PbM Unit := do
  let A ← getMmapAllocator a
  modify (·.setMmapAllocator a (some (f A)))

/-- Following a link that may be `NULL`. -/
def deref : Option Nat → PbM Nat
  | some p => pure p
  | none => throw .dangling

/-! ## Bytes -/

/-- The byte of a region at a distance from its start; beyond the bounds of
the region, and in a region that was never written, it is unspecified. -/
def Heap.byteAt (h : Heap) : Region → Nat → UInt8
  | .mapped m, i =>
      match h.mappings m with
      | some M => (h.files M.file).getD (M.offset + i) 0
      | none => h.mem (.mapped m) i
  | r, i => h.mem r i

/-- The `n` bytes from `p` on. -/
def Heap.bytes (h : Heap) (p : Ptr) (n : Nat) : List UInt8 :=
  (List.range n).map (fun i => h.byteAt p.region (p.offset + i))

/-- The size of a region that may be accessed. -/
def Heap.regionSize (h : Heap) : Region → Option Nat
  | .null => none
  | .heap n => h.blocks n
  | .caller c => some (h.callerLen c)
  | .mapped m => (h.mappings m).map Mapping.len

/-- `n` bytes from `p` on may be accessed. -/
def Heap.inBounds (h : Heap) (p : Ptr) (n : Nat) : Bool :=
  match h.regionSize p.region with
  | some size => p.offset + n ≤ size
  | none => n == 0

/-- Overwriting the bytes of a file; what lies beyond its end is lost. -/
def patchFile (bytes : List UInt8) (i : Nat) (bs : List UInt8) : List UInt8 :=
  bytes.mapIdx (fun k x => if i ≤ k ∧ k < i + bs.length then bs.getD (k - i) 0 else x)

/-- Storing bytes at `p`. -/
def Heap.store (h : Heap) (p : Ptr) (bs : List UInt8) : Heap :=
  match p.region with
  | .mapped m =>
      match h.mappings m with
      | some M => h.setFile M.file (patchFile (h.files M.file) (M.offset + p.offset) bs)
      | none => h
  | r =>
      { h with mem := Function.update h.mem r (fun i =>
          if p.offset ≤ i ∧ i < p.offset + bs.length then bs.getD (i - p.offset) 0
          else h.mem r i) }

/-- The source side of `memcpy`. -/
def memRead (p : Ptr) (n : Nat) : PbM (List UInt8) := fun h =>
  .ok (h.bytes p n, { h with overread := h.overread || !h.inBounds p n })

/-- The target side of `memcpy`. -/
def memWrite (p : Ptr) (bs : List UInt8) : PbM Unit := fun h =>
  if h.inBounds p bs.length then .ok ((), h.store p bs) else .error .outOfBounds

/-- The part of the caller's memory that a round copies. -/
def callerSlice (buf : List UInt8) (i n : Nat) : PbM (List UInt8) :=
  if i + n ≤ buf.length then pure ((buf.drop i).take n) else throw .outOfBounds

/-! ## Allocation -/

/-- The state after a request that was granted: one more address is used. -/
def Heap.granted (h : Heap) : Heap := { h with next := h.next + 1, calls := h.calls + 1 }

/-- The state after a request that was refused. -/
def Heap.refused (h : Heap) : Heap := { h with calls := h.calls + 1 }

/-- A fresh address if `grants` says so. -/
def requestFrom (grants : Nat → Bool) : PbM (Option Nat) := fun h =>
  if grants h.calls then .ok (some h.next, h.granted) else .ok (none, h.refused)

/-- A request for memory. -/
def request (env : Env) : PbM (Option Nat) := requestFrom env.grants

/-- A call of the operating system. -/
def osRequest (env : Env) : PbM (Option Nat) := requestFrom env.osGrants

/-- `pb_allocator_malloc` for a block of bytes. `pb_mmap_allocator_malloc`
asserts that it is never called. -/
def allocatorMalloc (env : Env) (allocator : BufferClass) (size : Nat) :
    PbM (Option Ptr) :=
  match allocator with
  | .mmap _ => throw .assertion
  | .trivial => do
      match ← request env with
      | none => pure none
      | some n => do
          modify (·.setBlock n (some size))
          pure (some ⟨.heap n, 0⟩)

/-- `pb_allocator_free` of a block of bytes. -/
def allocatorFree (p : Ptr) : PbM Unit := fun h =>
  match p.region with
  | .heap n =>
      if p.offset = 0 ∧ (h.blocks n).isSome then .ok ((), h.setBlock n none)
      else .error .badFree
  | _ => .error .badFree

/-- `pb_allocator_free` of a `pb_page`. -/
def freePage (p : Nat) : PbM Unit := fun h =>
  if (h.pages p).isSome then .ok ((), h.setPage p none) else .error .badFree

/-- `pb_allocator_free` of a `pb_data`. -/
def freeData (d : Nat) : PbM Unit := fun h =>
  if (h.datas d).isSome then .ok ((), h.setData d none) else .error .badFree

end Pb
