import PageBuf.Model.System

/-!
# MmapSystem — one mmap buffer over its file

The calls on an mmap buffer that is the only user of its file, and the states
they lead to. A page iterator is the end iterator or a page of the ring, which
is never more than what has been mapped of the file so far.
-/

namespace Pb

open StateRun

/-- The calls on an mmap buffer. -/
inductive MmapOp where
  | writeData (buf : List UInt8)
  | writeDataRef (buf : List UInt8)
  | extend (len : Nat)
  | reserve (size : Nat)
  | rewind (len : Nat)
  | seek (len : Nat)
  | trim (len : Nat)
  | overwriteData (buf : List UInt8)
  | readData (len : Nat)
  | clear
  | getDataSize
  | getIterator
  | nextIterator (it : Nat)
  | prevIterator (it : Nat)
  | getByteIterator
  | nextByteIterator (bi : ByteIterator)
  | prevByteIterator (bi : ByteIterator)
  | destroy
deriving DecidableEq, Repr

/-- What a call on an mmap buffer returns. -/
inductive MmapRet where
  | unit
  | count (n : Nat)
  | bytes (bs : List UInt8)
  | iterator (it : Nat)
  | byteIterator (bi : ByteIterator)
deriving DecidableEq, Repr

/-- `pb_buffer_destroy`. -/
def bufferDestroy (env : Env) (b : Nat) : PbM Unit := do
  match (← getBuffer b).operations with
  | .trivial => trivialBufferDestroy env b
  | .mmap a => mmapBufferDestroy env b a

/-- Running a call. `pb_mmap_buffer_write_data_ref` is
`pb_mmap_buffer_write_data`, and what the mmap class does not override is what
the trivial class has. -/
def execMmap (env : Env) (b : Nat) : MmapOp → PbM MmapRet
  | .writeData buf => return .count (← bufferWriteData env b buf)
  | .writeDataRef buf => return .count (← bufferWriteData env b buf)
  | .extend len => return .count (← bufferExtend env b len)
  | .reserve size => return .count (← bufferReserve env b size)
  | .rewind len => return .count (← bufferRewind env b len)
  | .seek len => return .count (← bufferSeek env b len)
  | .trim len => return .count (← bufferTrim env b len)
  | .overwriteData buf => return .count (← trivialBufferOverwriteData env b buf)
  | .readData len => return .bytes (← trivialBufferReadData env b len)
  | .clear => do bufferClear env b; return .unit
  | .getDataSize => return .count (← bufferGetDataSize env b)
  | .getIterator => return .iterator (← bufferGetIterator env b)
  | .nextIterator it => return .iterator (← bufferNextIterator env b it)
  | .prevIterator it => return .iterator (← bufferPrevIterator env b it)
  | .getByteIterator => return .byteIterator (← bufferGetByteIterator env b)
  | .nextByteIterator bi => return .byteIterator (← bufferNextByteIterator env b bi)
  | .prevByteIterator bi => return .byteIterator (← bufferPrevByteIterator env b bi)
  | .destroy => do bufferDestroy env b; return .unit

/-- The buffer is there, and an iterator is its end or one of its pages. -/
def MmapOp.Valid (h : Heap) (b : Nat) : MmapOp → Prop
  | .nextIterator it | .prevIterator it => (h.buffers b).isSome ∧ h.IsPlaceOf b it
  | .nextByteIterator bi | .prevByteIterator bi =>
      (h.buffers b).isSome ∧ h.IsPlaceOf b bi.bufferIterator
  | _ => (h.buffers b).isSome

/-- One call of a client that keeps to `M`. -/
def MmapStep (env : Env) (M : Heap → MmapOp → Prop) (b : Nat) (h h' : Heap) : Prop :=
  ∃ (op : MmapOp) (r : MmapRet), op.Valid h b ∧ M h op ∧ execMmap env b op h = .ok (r, h')

/-- The states of an mmap buffer `b` over a file that was there with any bytes
or with none, under a client that keeps to `M`. -/
def MmapReachable (env : Env) (openAction : MmapOpenAction) (M : Heap → MmapOp → Prop)
    (b : Nat) (h : Heap) : Prop :=
  ∃ mem callerLen files file closeAction h₀,
    mmapBufferCreate env file openAction closeAction (Heap.initial mem callerLen files)
      = .ok (some b, h₀) ∧
    Relation.ReflTransGen (MmapStep env M b) h₀ h

namespace Heap

/-- The allocator of an mmap buffer. -/
def mmapAllocatorOf (h : Heap) (b : Nat) : Option MmapAllocator :=
  match h.buffers b with
  | some ⟨_, .mmap a, _, _⟩ => h.mmapAllocators a
  | _ => none

/-- The bytes of the file of an mmap buffer. -/
def fileOf (h : Heap) (b : Nat) : List UInt8 :=
  match (h.mmapAllocatorOf b).bind MmapAllocator.fileFd with
  | some fd => h.files fd.file
  | none => []

/-- `file_head_offset`. -/
def fileHead (h : Heap) (b : Nat) : Nat :=
  ((h.mmapAllocatorOf b).map MmapAllocator.fileHeadOffset).getD 0

/-- The `pb_mmap_data` a data object is: its allocator, its `file_offset` and
whether it is obsolete. -/
def mmapFieldsOf (h : Heap) (d : Nat) : Option (Nat × Nat × Bool) :=
  match h.datas d with
  | some ⟨_, _, _, .mmap a fileOffset obsolete⟩ => some (a, fileOffset, obsolete)
  | _ => none

end Heap

end Pb
