import PageBuf.Model.Operations

/-!
# Mmap — the operations of an mmap buffer

The file behind an mmap buffer is a list of bytes. A mapping shows the bytes
that are in the file at the moment of an access, so stores to mapped pages
and writes to the file are seen by each other.
-/

namespace Pb

open StateRun

/-! ## The allocator -/

/-- `enum pb_mmap_open_action`. -/
inductive MmapOpenAction where
  | read
  | append
  | overwrite
deriving DecidableEq, Repr

/-- `pb_mmap_allocator_create`, the file path standing for its file. A failed
`open` leaves the allocator without a descriptor. -/
def mmapAllocatorCreate (env : Env) (file : Nat) (openAction : MmapOpenAction)
    (closeAction : MmapCloseAction) : PbM (Option Nat) := do
  match ← request env with
  | none => pure none
  | some a => do
      modify (·.setMmapAllocator a (some {
        useCount := 1, fileFd := none, fileHeadOffset := 0, dataTree := []
        closeAction := .retain }))
      match ← request env with
      | none => do
          mmapAllocatorPut a
          pure none
      | some _ => do
          let fileFd ← match ← osRequest env with
            | none => pure none
            | some _ => do
                if openAction = .overwrite then modify (·.setFile file []) else pure ()
                pure (some ⟨file, openAction ≠ .read⟩)
          modifyMmapAllocator a (fun A => { A with
            fileFd := fileFd, fileHeadOffset := 0, closeAction := closeAction })
          pure (some a)

/-- `ftruncate64`: bytes are dropped or zero bytes added at the end. -/
def ftruncate (env : Env) (fd : Fd) (size : Nat) : PbM Bool := do
  match ← osRequest env with
  | none => pure false
  | some _ =>
      if fd.writable then do
        modify (fun h => h.setFile fd.file
          ((h.files fd.file).take size ++ List.replicate (size - (h.files fd.file).length) 0))
        pure true
      else pure false

/-- `write` to a file opened with `O_APPEND`: how many of the bytes are taken
is up to the system, `none` is an error. -/
def writeFile (env : Env) (fd : Fd) (buf : List UInt8) : PbM (Option Nat) := fun h =>
  if env.osGrants h.calls && fd.writable then
    let n := min (env.accepts h.calls buf.length) buf.length
    .ok (some n, { h.setFile fd.file (h.files fd.file ++ buf.take n) with calls := h.calls + 1 })
  else .ok (none, { h with calls := h.calls + 1 })

/-- `pb_mmap_allocator_extend`. -/
def mmapAllocatorExtend (env : Env) (a len : Nat) : PbM Nat := do
  let A ← getMmapAllocator a
  match A.fileFd with
  | none => pure 0
  | some fd => do
      let fileSize ← mmapAllocatorGetFileSize env a
      if ← ftruncate env fd (fileSize + len) then pure len else pure 0

/-- `pb_mmap_allocator_reserve`. -/
def mmapAllocatorReserve (env : Env) (a size : Nat) : PbM Nat := do
  let A ← getMmapAllocator a
  match A.fileFd with
  | none => pure 0
  | some _ => do
      let dataSize ← mmapAllocatorGetDataSize env a
      if size ≤ dataSize then pure 0
      else mmapAllocatorExtend env a (size - dataSize)

/-- `pb_mmap_allocator_rewind`. -/
def mmapAllocatorRewind (a len : Nat) : PbM Nat := do
  let A ← getMmapAllocator a
  match A.fileFd with
  | none => pure 0
  | some _ => do
      let toRewind := if len < A.fileHeadOffset then len else A.fileHeadOffset
      modifyMmapAllocator a (fun A => { A with fileHeadOffset := A.fileHeadOffset - toRewind })
      pure toRewind

/-- `pb_mmap_allocator_seek`. -/
def mmapAllocatorSeek (env : Env) (a len : Nat) : PbM Nat := do
  let A ← getMmapAllocator a
  match A.fileFd with
  | none => pure 0
  | some _ => do
      let fileSize ← mmapAllocatorGetFileSize env a
      let left := wrapSub fileSize A.fileHeadOffset
      let len := if len > left then left else len
      modifyMmapAllocator a (fun A => { A with fileHeadOffset := A.fileHeadOffset + len })
      pure len

/-- The variables of `pb_mmap_allocator_trim`. -/
structure MmapTrimLoop where
  len : Nat
  trimmed : Nat
deriving DecidableEq, Repr

/-- One round of `pb_mmap_allocator_trim`. Every round looks up the block at the
end the file had before the first one. -/
def mmapTrimRound (env : Env) (a fileSize : Nat) (s : MmapTrimLoop) :
    PbM (MmapTrimLoop ⊕ Nat) :=
  if s.len = 0 then pure (.inr s.trimmed)
  else do
    let mmapOffset := mmapOffsetOf fileSize
    let A ← getMmapAllocator a
    match ← dataTreeFind mmapOffset A.dataTree with
    | some d => do
        let mmapLen := (← getData d).dataVec.len
        let trimLen := if mmapLen < s.len then mmapLen else s.len
        if trimLen < mmapLen then do
          match ← mmapAllocatorDataCreate env a mmapOffset (mmapLen - trimLen) with
          | none => pure (.inr s.trimmed)
          | some _ => do
              -- it is the old data that is added, under its own key
              dataTreeDel a d
              markObsolete d
              dataTreeAdd a d
              dataGet d
              dataPut d
              pure (.inl ⟨s.len - trimLen, s.trimmed + trimLen⟩)
        else do
          dataTreeDel a d
          markObsolete d
          dataPut d
          pure (.inl ⟨s.len - trimLen, s.trimmed + trimLen⟩)
    | none => do
        let left := fileSize - mmapOffset
        let trimLen := if left < s.len then left else s.len
        pure (.inl ⟨s.len - trimLen, s.trimmed + trimLen⟩)

/-- `pb_mmap_allocator_trim`. A round that trims nothing changes nothing, so the
loop ends within as many rounds as there are bytes to trim or not at all. -/
def mmapAllocatorTrim (env : Env) (a len : Nat) : PbM Nat := do
  let A ← getMmapAllocator a
  match A.fileFd with
  | none => pure 0
  | some fd => do
      let fileSize ← mmapAllocatorGetFileSize env a
      let left := wrapSub fileSize A.fileHeadOffset
      let len := if len > left then left else len
      if len = 0 then pure 0
      else do
        let trimmed ← loopM .diverges (mmapTrimRound env a fileSize) (len + 1) ⟨len, 0⟩
        if ← ftruncate env fd (wrapSub fileSize trimmed) then pure trimmed else pure 0

/-- `pb_mmap_allocator_write_data`. -/
def mmapAllocatorWriteData (env : Env) (a : Nat) (buf : List UInt8) : PbM Nat := do
  let A ← getMmapAllocator a
  match A.fileFd with
  | none => pure 0
  | some fd => do
      let written ← writeFile env fd buf
      pure (written.getD 0)

/-- The variables of `pb_mmap_allocator_write_data_buffer`; `iovpos` is the
length of `iov`. -/
structure GatherLoop where
  srcIt : Nat
  len : Nat
  iov : List DataVec
  iovlim : Nat
deriving DecidableEq, Repr

/-- Room for another entry: `iovlim`, doubled when the vector is full, and
`none` where it cannot or must not get longer. -/
def growVector (env : Env) (s : GatherLoop) : PbM (Option Nat) :=
  if s.iov.length = s.iovlim then
    if s.iovlim = 1024 then pure none
    else do
      match ← request env with
      | none => pure none
      | some _ => pure (some (s.iovlim * 2))
  else pure (some s.iovlim)

/-- One round of `pb_mmap_allocator_write_data_buffer`. -/
def gatherRound (env : Env) (src : Nat) (s : GatherLoop) : PbM (GatherLoop ⊕ List DataVec) :=
  if s.len = 0 || bufferIsEndIterator src s.srcIt then pure (.inr s.iov)
  else do
    match ← growVector env s with
    | none => pure (.inr s.iov)
    | some iovlim => do
        let pageLen ← pageGetLen s.srcIt
        let iovLen := if pageLen < s.len then pageLen else s.len
        let iovBase ← pageGetBase s.srcIt
        let srcIt ← bufferNextIterator env src s.srcIt
        pure (.inl ⟨srcIt, s.len - iovLen, s.iov ++ [⟨iovBase, iovLen⟩], iovlim⟩)

/-- The bytes that the entries of a vector stand for. -/
def memReadVector : List DataVec → PbM (List UInt8)
  | [] => pure []
  | v :: rest => do
      let bs ← memRead v.base v.len
      return bs ++ (← memReadVector rest)

/-- `writev` to a file opened with `O_APPEND`. -/
def writevFile (env : Env) (fd : Fd) (iov : List DataVec) : PbM (Option Nat) := do
  writeFile env fd (← memReadVector iov)

/-- `pb_mmap_allocator_write_data_buffer`. A vector of 1024 entries gets no
longer, so there are no more rounds than one for each and a last one. -/
def mmapAllocatorWriteDataBuffer (env : Env) (a src len : Nat) : PbM Nat := do
  let A ← getMmapAllocator a
  match A.fileFd with
  | none => pure 0
  | some fd => do
      let srcIt ← bufferGetIterator env src
      if bufferIsEndIterator src srcIt then pure 0
      else do
        match ← request env with
        | none => pure 0
        | some _ => do
            let iov ← loopM .diverges (gatherRound env src) 1025 ⟨srcIt, len, [], 2⟩
            let written ← writevFile env fd iov
            pure (written.getD 0)

/-- `pb_mmap_allocator_clear`. -/
def mmapAllocatorClear (env : Env) (a : Nat) : PbM Unit := do
  let A ← getMmapAllocator a
  match A.fileFd with
  | none => pure ()
  | some _ => do
      let fileSize ← mmapAllocatorGetFileSize env a
      modifyMmapAllocator a (fun A => { A with fileHeadOffset := fileSize })

/-! ## The buffer -/

/-- `pb_mmap_buffer_create`. -/
def mmapBufferCreate (env : Env) (file : Nat) (openAction : MmapOpenAction)
    (closeAction : MmapCloseAction) : PbM (Option Nat) := do
  match ← mmapAllocatorCreate env file openAction closeAction with
  | none => pure none
  | some a => do
      match ← request env with
      | none => do
          mmapAllocatorPut a
          pure none
      | some b => do
          modify (·.setPage b (some { prev := some b, next := some b }))
          modify (·.setBuffer b (some {
            strategy := mmapBufferStrategy, operations := .mmap a }))
          pure (some b)

/-- `pb_mmap_buffer_extend`. -/
def mmapBufferExtend (env : Env) (a len : Nat) : PbM Nat := mmapAllocatorExtend env a len

/-- `pb_mmap_buffer_reserve`. -/
def mmapBufferReserve (env : Env) (a size : Nat) : PbM Nat := mmapAllocatorReserve env a size

/-- `pb_mmap_buffer_rewind`. -/
def mmapBufferRewind (b a len : Nat) : PbM Nat := do
  let rewinded ← mmapAllocatorRewind a len
  trivialPureBufferClear b
  pure rewinded

/-- `pb_mmap_buffer_seek`. -/
def mmapBufferSeek (env : Env) (b a len : Nat) : PbM Nat := do
  let seeked ← mmapAllocatorSeek env a len
  trivialPureBufferClear b
  pure seeked

/-- `pb_mmap_buffer_trim`. -/
def mmapBufferTrim (env : Env) (b a len : Nat) : PbM Nat := do
  let trimmed ← mmapAllocatorTrim env a len
  trivialPureBufferClear b
  pure trimmed

/-- `pb_mmap_buffer_write_data`, and `pb_mmap_buffer_write_data_ref`, which
has the same body. -/
def mmapBufferWriteData (env : Env) (b a : Nat) (buf : List UInt8) : PbM Nat := do
  if (← bufferGetDataSize env b) = 0 then trivialBufferIncrementDataRevision b else pure ()
  mmapAllocatorWriteData env a buf

/-- `pb_mmap_buffer_write_data_ref`, the bytes in the caller's memory. -/
def mmapBufferWriteDataRef (env : Env) (b a : Nat) (buf : Ptr) (len : Nat) : PbM Nat := do
  if (← bufferGetDataSize env b) = 0 then trivialBufferIncrementDataRevision b else pure ()
  mmapAllocatorWriteData env a (← memRead buf len)

/-- `pb_mmap_buffer_write_buffer`. -/
def mmapBufferWriteBuffer (env : Env) (b a src len : Nat) : PbM Nat := do
  if (← bufferGetDataSize env b) = 0 then trivialBufferIncrementDataRevision b else pure ()
  mmapAllocatorWriteDataBuffer env a src len

/-- `pb_mmap_buffer_clear`. -/
def mmapBufferClear (env : Env) (b a : Nat) : PbM Unit := do
  trivialPureBufferClear b
  mmapAllocatorClear env a

/-- `pb_mmap_buffer_destroy`. -/
def mmapBufferDestroy (env : Env) (b a : Nat) : PbM Unit := do
  mmapBufferClear env b a
  freeBuffer b
  mmapAllocatorPut a

/-! ## The virtual operations -/

/-- `pb_buffer_extend`. -/
def bufferExtend (env : Env) (b len : Nat) : PbM Nat := do
  match (← getBuffer b).operations with
  | .trivial => trivialBufferExtend env b len
  | .mmap a => mmapBufferExtend env a len

/-- `pb_buffer_reserve`. -/
def bufferReserve (env : Env) (b size : Nat) : PbM Nat := do
  match (← getBuffer b).operations with
  | .trivial => trivialBufferReserve env b size
  | .mmap a => mmapBufferReserve env a size

/-- `pb_buffer_rewind`. -/
def bufferRewind (env : Env) (b len : Nat) : PbM Nat := do
  match (← getBuffer b).operations with
  | .trivial => trivialBufferRewind env b len
  | .mmap a => mmapBufferRewind b a len

/-- `pb_buffer_seek`. -/
def bufferSeek (env : Env) (b len : Nat) : PbM Nat := do
  match (← getBuffer b).operations with
  | .trivial => trivialBufferSeek env b len
  | .mmap a => mmapBufferSeek env b a len

/-- `pb_buffer_trim`. -/
def bufferTrim (env : Env) (b len : Nat) : PbM Nat := do
  match (← getBuffer b).operations with
  | .trivial => trivialBufferTrim env b len
  | .mmap a => mmapBufferTrim env b a len

/-- `pb_buffer_write_data`. -/
def bufferWriteData (env : Env) (b : Nat) (buf : List UInt8) : PbM Nat := do
  match (← getBuffer b).operations with
  | .trivial => trivialBufferWriteData env b buf
  | .mmap a => mmapBufferWriteData env b a buf

/-- `pb_buffer_write_data_ref`. -/
def bufferWriteDataRef (env : Env) (b : Nat) (buf : Ptr) (len : Nat) : PbM Nat := do
  match (← getBuffer b).operations with
  | .trivial => trivialBufferWriteDataRef env b buf len
  | .mmap a => mmapBufferWriteDataRef env b a buf len

/-- `pb_buffer_write_buffer`. -/
def bufferWriteBuffer (env : Env) (b src len : Nat) : PbM Nat := do
  match (← getBuffer b).operations with
  | .trivial => trivialBufferWriteBuffer env b src len
  | .mmap a => mmapBufferWriteBuffer env b a src len

/-- `pb_buffer_clear`. -/
def bufferClear (env : Env) (b : Nat) : PbM Unit := do
  match (← getBuffer b).operations with
  | .trivial => trivialBufferClear env b
  | .mmap a => mmapBufferClear env b a

end Pb
