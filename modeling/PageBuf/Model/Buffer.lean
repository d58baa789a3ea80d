import PageBuf.Model.Data

/-!
# Buffer — iterators and the insertion of a page

The part of the two buffer classes on which all operations rest: iterators,
data size and revision, `pb_trivial_buffer_insert`, and the mapping of file
blocks into pages when an iterator of an mmap buffer reaches the end of what
is mapped. An iterator is the address of a page object; the end iterator is
the address of the buffer, whose page object is `page_end`.

The functions without the word `trivial` or `mmap` are the virtual ones: they
choose by the class of the buffer.
-/

namespace Pb

open StateRun

/-! ## Iterators of a trivial buffer -/

/-- `pb_trivial_buffer_get_iterator`. -/
def trivialBufferGetIterator (b : Nat) : PbM Nat := do
  let E ← getPage b
  deref E.next

/-- `pb_trivial_buffer_get_end_iterator`. -/
def trivialBufferGetEndIterator (b : Nat) : PbM Nat := pure b

/-- `pb_trivial_buffer_is_end_iterator`. -/
def trivialBufferIsEndIterator (b it : Nat) : Bool := it = b

/-- `pb_trivial_buffer_cmp_iterator`. -/
def trivialBufferCmpIterator (lvalue rvalue : Nat) : Bool := lvalue = rvalue

/-- `pb_trivial_buffer_next_iterator`. -/
def trivialBufferNextIterator (it : Nat) : PbM Nat := do
  let P ← getPage it
  deref P.next

/-- `pb_trivial_buffer_prev_iterator`. -/
def trivialBufferPrevIterator (it : Nat) : PbM Nat := do
  let P ← getPage it
  deref P.prev

/-! ## Revision and size -/

/-- What a reader of the `uint64_t` revision sees after `n` increments. -/
def revisionValue (n : Nat) : Nat := n % 2 ^ 64

/-- `pb_trivial_buffer_get_data_revision`. -/
def trivialBufferGetDataRevision (b : Nat) : PbM Nat := do
  return revisionValue (← getBuffer b).dataRevision

/-- `pb_trivial_buffer_increment_data_revision`. -/
def trivialBufferIncrementDataRevision (b : Nat) : PbM Unit :=
  modifyBuffer b (fun B => { B with dataRevision := B.dataRevision + 1 })

/-- `pb_trivial_buffer_increment_data_size`. -/
def trivialBufferIncrementDataSize (b size : Nat) : PbM Unit :=
  modifyBuffer b (fun B => { B with dataSize := B.dataSize + size })

/-- `pb_trivial_buffer_decrement_data_size`. -/
def trivialBufferDecrementDataSize (b size : Nat) : PbM Unit :=
  modifyBuffer b (fun B => { B with dataSize := wrapSub B.dataSize size })

/-- One round of the audit in `pb_trivial_buffer_get_data_size`: the loop
state is the iterator and `audit_size`. -/
def auditRound (b : Nat) (s : Nat × Nat) : PbM (Nat × Nat ⊕ Nat) :=
  if trivialBufferIsEndIterator b s.1 then pure (.inr s.2)
  else do
    let len ← pageGetLen s.1
    let it ← trivialBufferNextIterator s.1
    pure (.inl (it, s.2 + len))

/-- `pb_trivial_buffer_get_data_size`, with the audit. No ring is longer than
the number of addresses handed out, which is the fuel. -/
def trivialBufferGetDataSize (b : Nat) : PbM Nat := do
  let it ← trivialBufferGetIterator b
  let h ← get
  let auditSize ← loopM .diverges (auditRound b) (h.next + 1) (it, 0)
  let B ← getBuffer b
  if auditSize = B.dataSize then pure B.dataSize else throw .assertion

/-- `pb_mmap_allocator_get_file_size`; `fstat` is a request that may fail. -/
def mmapAllocatorGetFileSize (env : Env) (a : Nat) : PbM Nat := do
  let A ← getMmapAllocator a
  match A.fileFd with
  | none => pure 0
  | some fd => do
      match ← osRequest env with
      | none => pure 0
      | some _ => do
          let h ← get
          pure (h.files fd.file).length

/-- `pb_mmap_allocator_get_data_size` and `pb_mmap_buffer_get_data_size`. -/
def mmapAllocatorGetDataSize (env : Env) (a : Nat) : PbM Nat := do
  let A ← getMmapAllocator a
  match A.fileFd with
  | none => pure 0
  | some _ => do
      let fileSize ← mmapAllocatorGetFileSize env a
      if fileSize < A.fileHeadOffset then throw .assertion
      else pure (fileSize - A.fileHeadOffset)

/-- `pb_buffer_get_data_size`. -/
def bufferGetDataSize (env : Env) (b : Nat) : PbM Nat := do
  let B ← getBuffer b
  match B.operations with
  | .trivial => trivialBufferGetDataSize b
  | .mmap a => mmapAllocatorGetDataSize env a

/-- `pb_buffer_get_data_revision`. -/
def bufferGetDataRevision (b : Nat) : PbM Nat := trivialBufferGetDataRevision b

/-- `pb_buffer_is_end_iterator`; the mmap class forwards to the trivial one. -/
def bufferIsEndIterator (b it : Nat) : Bool := trivialBufferIsEndIterator b it

/-- `pb_buffer_get_end_iterator`. -/
def bufferGetEndIterator (b : Nat) : PbM Nat := trivialBufferGetEndIterator b

/-- `pb_buffer_cmp_iterator`. -/
def bufferCmpIterator (lvalue rvalue : Nat) : Bool := trivialBufferCmpIterator lvalue rvalue

/-! ## Insertion of one page -/

/-- The bump at the head of `pb_trivial_buffer_insert`. -/
def trivialBufferInsertBump (env : Env) (b it : Nat) : PbM Unit := do
  if bufferIsEndIterator b it then do
    if (← bufferGetDataSize env b) = 0 then trivialBufferIncrementDataRevision b
    else pure ()
  else trivialBufferIncrementDataRevision b

/-- Splitting `nextPage` at `offset`: the new page takes the bytes before the
offset and is linked in front. `none` if the page cannot be allocated. -/
def trivialBufferSplit (env : Env) (nextPage offset : Nat) : PbM (Option Nat) := do
  match ← pageTransfer env nextPage (← pageGetLen nextPage) 0 with
  | none => pure none
  | some prevPage => do
      let N ← getPage nextPage
      modifyPage prevPage (fun P => { P with
        dataVec := { P.dataVec with len := offset }
        prev := N.prev
        next := some nextPage })
      modifyPage nextPage (fun P => { P with
        dataVec := ⟨P.dataVec.base.add offset, P.dataVec.len - offset⟩ })
      modifyPage (← deref N.prev) (fun P => { P with next := some prevPage })
      modifyPage nextPage (fun P => { P with prev := some prevPage })
      pure (some prevPage)

/-- Linking `page` between `prevPage` and `nextPage`. -/
def linkPage (prevPage nextPage page : Nat) : PbM Unit := do
  modifyPage page (fun P => { P with prev := some prevPage, next := some nextPage })
  modifyPage prevPage (fun P => { P with next := some page })
  modifyPage nextPage (fun P => { P with prev := some page })

/-- `pb_trivial_buffer_insert`. -/
def trivialBufferInsert (env : Env) (b it offset page : Nat) : PbM Nat := do
  trivialBufferInsertBump env b it
  let nextLen ← pageGetLen it
  let offset := if offset > nextLen then nextLen else offset
  let prevPage ←
    if offset ≠ 0 then trivialBufferSplit env it offset
    else do
      let N ← getPage it
      pure N.prev
  match prevPage with
  | none => if offset ≠ 0 then pure 0 else throw .dangling
  | some prevPage => do
      linkPage prevPage it page
      let len ← pageGetLen page
      trivialBufferIncrementDataSize b len
      pure len

/-! ## Mapping blocks of a file -/

/-- `PB_MMAP_ALLOCATOR_BASE_MMAP_SIZE`. -/
def mmapBaseSize : Nat := 4096

/-- The `mmap_offset` of a file offset. -/
def mmapOffsetOf (fileOffset : Nat) : Nat := fileOffset / mmapBaseSize * mmapBaseSize

/-- The fields of a `pb_mmap_data`; the code casts without a check. -/
def mmapFields (D : Data) : PbM (Nat × Bool) :=
  match D.operations with
  | .mmap _ fileOffset obsolete => pure (fileOffset, obsolete)
  | .trivial => throw .badCast

/-- `PB_HASH_FIND_UINT64` on the data tree: every key is read from the
element itself. -/
def dataTreeFind (key : Nat) : List Nat → PbM (Option Nat)
  | [] => pure none
  | d :: rest => do
      let D ← getData d
      let (fileOffset, _) ← mmapFields D
      if fileOffset = key then pure (some d) else dataTreeFind key rest

/-- `mmap64` for shared reading and writing, which fails on an empty length
and on a file that is not open for writing. -/
def mmap64 (env : Env) (fd : Fd) (mmapOffset mmapLen : Nat) : PbM (Option Nat) := do
  if mmapLen = 0 || !fd.writable then pure none
  else do
    match ← osRequest env with
    | none => pure none
    | some m => do
        modify (·.setMapping m (some ⟨fd.file, mmapOffset, mmapLen⟩))
        pure (some m)

/-- `pb_mmap_allocator_data_create`. -/
def mmapAllocatorDataCreate (env : Env) (a mmapOffset mmapLen : Nat) :
    PbM (Option Nat) := do
  let A ← getMmapAllocator a
  match A.fileFd with
  | none => pure none
  | some fd => do
      match ← mmap64 env fd mmapOffset mmapLen with
      | none => pure none
      | some m => do
          match ← request env with
          | none => do
              munmap ⟨.mapped m, 0⟩
              pure none
          | some d => do
              modify (·.setData d (some {
                dataVec := ⟨⟨.mapped m, 0⟩, mmapLen⟩, responsibility := .owned,
                useCount := 1, operations := .mmap a mmapOffset false }))
              mmapAllocatorGet a
              pure (some d)

/-- `mmap_data->obsolete = true`. -/
def markObsolete (d : Nat) : PbM Unit := do
  let D ← getData d
  match D.operations with
  | .mmap a fileOffset _ => modify (·.setData d (some { D with operations := .mmap a fileOffset true }))
  | .trivial => throw .badCast

/-- The `mmap_len` for a block of a file of `fileSize` bytes. -/
def mmapLenOf (fileSize mmapOffset : Nat) : Nat :=
  if mmapBaseSize < wrapSub fileSize mmapOffset then mmapBaseSize
  else wrapSub fileSize mmapOffset

/-- The lookup that `page_map_forward` and `page_map_backward` share: the data
for the block at `mmapOffset` and the length of its mapping. -/
def mmapAllocatorMapBlock (env : Env) (a mmapOffset fileOffset fileSize : Nat) :
    PbM (Option (Nat × Nat)) := do
  let A ← getMmapAllocator a
  match ← dataTreeFind mmapOffset A.dataTree with
  | some d => do
      let mmapLen := (← getData d).dataVec.len
      if mmapOffset + mmapLen ≥ fileOffset + mmapBaseSize then do
        -- as big as it can be, held for the page to come
        dataGet d
        pure (some (d, mmapLen))
      else if mmapLen < mmapBaseSize ∧ mmapOffset + mmapLen < fileSize then do
        -- the file has grown: a longer mapping takes the place of this one
        let mmapLen := mmapLenOf fileSize mmapOffset
        match ← mmapAllocatorDataCreate env a mmapOffset mmapLen with
        | none => pure none
        | some newData => do
            dataTreeDel a d
            markObsolete d
            dataTreeAdd a newData
            pure (some (newData, mmapLen))
      else pure (some (d, mmapLen))
  | none => do
      let mmapLen := mmapLenOf fileSize mmapOffset
      match ← mmapAllocatorDataCreate env a mmapOffset mmapLen with
      | none => pure none
      | some d => do
          dataTreeAdd a d
          pure (some (d, mmapLen))

/-- The page on the data just found, and the `pb_data_put` that ends both
mapping functions. -/
def mmapAllocatorMapPage (env : Env) (d distance len : Nat) : PbM (Option Nat) := do
  match ← pageCreate env d with
  | none => do
      dataPut d
      pure none
  | some page => do
      let D ← getData d
      modifyPage page (fun P => { P with dataVec := ⟨D.dataVec.base.add distance, len⟩ })
      dataPut d
      pure (some page)

/-- Where the bytes of a mapped page lie in the file; `none` for `page_end`,
which has no data. -/
def mmapPageFileOffset (it : Nat) : PbM (Option Nat) := do
  let P ← getPage it
  match P.data with
  | none => pure none
  | some d => do
      let D ← getData d
      let (fileOffset, _) ← mmapFields D
      pure (some (fileOffset + wrapSub P.dataVec.base.offset D.dataVec.base.offset))

/-- `pb_mmap_allocator_page_map_forward`. -/
def mmapAllocatorPageMapForward (env : Env) (a it : Nat) : PbM (Option Nat) := do
  let A ← getMmapAllocator a
  match A.fileFd with
  | none => pure none
  | some _ => do
      let pageOffset ← mmapPageFileOffset it
      let fileSize ← mmapAllocatorGetFileSize env a
      let fileOffset ← match pageOffset with
        | some off => do
            let pageLen ← pageGetLen it
            pure (off + pageLen)
        | none => pure A.fileHeadOffset
      let mmapOffset := mmapOffsetOf fileOffset
      if fileOffset = fileSize then pure none
      else do
        match ← mmapAllocatorMapBlock env a mmapOffset fileOffset fileSize with
        | none => pure none
        | some (d, mmapLen) =>
            mmapAllocatorMapPage env d (wrapSub fileOffset mmapOffset)
              (wrapSub (mmapOffset + mmapLen) fileOffset)

/-- `pb_mmap_allocator_page_map_backward`. -/
def mmapAllocatorPageMapBackward (env : Env) (a it : Nat) : PbM (Option Nat) := do
  let A ← getMmapAllocator a
  match A.fileFd with
  | none => pure none
  | some _ => do
      let pageOffset ← mmapPageFileOffset it
      let fileSize ← mmapAllocatorGetFileSize env a
      let fileCurrentOffset := pageOffset.getD fileSize
      let mmapOffset := mmapOffsetOf fileCurrentOffset
      if fileCurrentOffset ≤ A.fileHeadOffset then pure none
      else do
        let mmapOffset :=
          if fileCurrentOffset = mmapOffset then wrapSub mmapOffset mmapBaseSize
          else mmapOffset
        let fileOffset :=
          if mmapOffset > A.fileHeadOffset then mmapOffset else A.fileHeadOffset
        match ← mmapAllocatorMapBlock env a mmapOffset fileOffset fileSize with
        | none => pure none
        | some (d, _) =>
            mmapAllocatorMapPage env d (wrapSub fileOffset mmapOffset)
              (wrapSub fileCurrentOffset fileOffset)

/-! ## Iterators of an mmap buffer -/

/-- `pb_mmap_buffer_get_iterator`. -/
def mmapBufferGetIterator (env : Env) (b a : Nat) : PbM Nat := do
  let it ← trivialBufferGetIterator b
  if trivialBufferIsEndIterator b it then do
    match ← mmapAllocatorPageMapForward env a it with
    | none => trivialBufferGetEndIterator b
    | some page => do
        if (← trivialBufferInsert env b it 0 page) = 0 then trivialBufferGetEndIterator b
        else trivialBufferGetIterator b
  else pure it

/-- `pb_mmap_buffer_next_iterator`. -/
def mmapBufferNextIterator (env : Env) (b a it : Nat) : PbM Nat := do
  let it ← trivialBufferNextIterator it
  if trivialBufferIsEndIterator b it then do
    let it ← trivialBufferPrevIterator it
    match ← mmapAllocatorPageMapForward env a it with
    | none => trivialBufferGetEndIterator b
    | some page => do
        let endIt ← trivialBufferGetEndIterator b
        if (← trivialBufferInsert env b endIt 0 page) = 0 then trivialBufferGetEndIterator b
        else trivialBufferNextIterator it
  else pure it

/-- `pb_mmap_buffer_prev_iterator`. -/
def mmapBufferPrevIterator (env : Env) (b a it : Nat) : PbM Nat := do
  let it ← trivialBufferPrevIterator it
  if trivialBufferIsEndIterator b it then do
    let it ← trivialBufferNextIterator it
    match ← mmapAllocatorPageMapBackward env a it with
    | none => trivialBufferGetEndIterator b
    | some page => do
        let headIt ← trivialBufferGetIterator b
        if (← trivialBufferInsert env b headIt 0 page) = 0 then trivialBufferGetEndIterator b
        else trivialBufferPrevIterator it
  else pure it

/-! ## The virtual iterators -/

/-- `pb_buffer_get_iterator`. -/
def bufferGetIterator (env : Env) (b : Nat) : PbM Nat := do
  let B ← getBuffer b
  match B.operations with
  | .trivial => trivialBufferGetIterator b
  | .mmap a => mmapBufferGetIterator env b a

/-- `pb_buffer_next_iterator`. -/
def bufferNextIterator (env : Env) (b it : Nat) : PbM Nat := do
  let B ← getBuffer b
  match B.operations with
  | .trivial => trivialBufferNextIterator it
  | .mmap a => mmapBufferNextIterator env b a it

/-- `pb_buffer_prev_iterator`. -/
def bufferPrevIterator (env : Env) (b it : Nat) : PbM Nat := do
  let B ← getBuffer b
  match B.operations with
  | .trivial => trivialBufferPrevIterator it
  | .mmap a => mmapBufferPrevIterator env b a it

end Pb
