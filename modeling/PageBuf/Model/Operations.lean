import PageBuf.Model.Buffer

/-!
# Operations — the operations of a trivial buffer

Each `while` loop of the source is one `…Round` (what one round does to the
loop state) under `loopM`. The eight insertion loops are near-identical and
share two rounds: `insertPagesRound` for pages made from a length, and
`insertBufferRound` for pages made from the pages of a source buffer; each
source function passes its own page maker and its own cut of the length.

The loops that consume a length have one more than that length as fuel. Those
that only walk a ring get the number of addresses on top.
-/

namespace Pb

open StateRun

/-! ## Insertion of pages made from a length -/

/-- The variables of an insertion loop. -/
structure InsertLoop where
  offset : Nat
  len : Nat
  inserted : Nat
deriving DecidableEq, Repr

/-- The cut of a length at the page size of the target. -/
def cutLen (pageSize len : Nat) : Nat :=
  if pageSize ≠ 0 ∧ pageSize < len then pageSize else len

/-- One round: make a page of the next cut, insert it where `place` says. -/
def insertPagesRound (env : Env) (b : Nat) (place : PbM Nat)
    (make : Nat → Nat → PbM (Option Nat)) (s : InsertLoop) : PbM (InsertLoop ⊕ Nat) :=
  if s.len = 0 then pure (.inr s.inserted)
  else do
    let B ← getBuffer b
    let insertLen := cutLen B.strategy.pageSize s.len
    let it ← place
    match ← make s.inserted insertLen with
    | none => pure (.inr s.inserted)
    | some page => do
        let insertLen ← trivialBufferInsert env b it s.offset page
        if insertLen = 0 then do
          pageDestroy page
          pure (.inr s.inserted)
        else
          pure (.inl ⟨0, s.len - insertLen, s.inserted + insertLen⟩)

def insertPages (env : Env) (b : Nat) (place : PbM Nat)
    (make : Nat → Nat → PbM (Option Nat)) (offset len : Nat) : PbM Nat :=
  loopM .diverges (insertPagesRound env b place make) (len + 1) ⟨offset, len, 0⟩

/-- A new page filled from the caller's memory. -/
def makeDataPage (env : Env) (b : Nat) (buf : List UInt8) (inserted insertLen : Nat) :
    PbM (Option Nat) := do
  match ← trivialBufferPageCreate env b insertLen with
  | none => pure none
  | some page => do
      let bs ← callerSlice buf inserted (← pageGetLen page)
      memWrite (← pageGetBase page) bs
      pure (some page)

/-- `pb_trivial_buffer_insert_data1`; `len` is the length of `buf`. -/
def trivialBufferInsertData1 (env : Env) (b it offset : Nat) (buf : List UInt8) : PbM Nat :=
  insertPages env b (pure it) (makeDataPage env b buf) offset buf.length

/-- `pb_trivial_buffer_insert_data_ref1`. -/
def trivialBufferInsertDataRef1 (env : Env) (b it offset : Nat) (buf : Ptr) (len : Nat) :
    PbM Nat :=
  insertPages env b (pure it)
    (fun inserted insertLen => trivialBufferPageCreateRef env (buf.add inserted) insertLen)
    offset len

/-- `pb_trivial_buffer_insert_data`. -/
def trivialBufferInsertData (env : Env) (b it offset : Nat) (buf : List UInt8) : PbM Nat := do
  let B ← getBuffer b
  if !bufferIsEndIterator b it && B.strategy.rejectsInsert then pure 0
  else trivialBufferInsertData1 env b it offset buf

/-- `pb_trivial_buffer_insert_data_ref`. -/
def trivialBufferInsertDataRef (env : Env) (b it offset : Nat) (buf : Ptr) (len : Nat) :
    PbM Nat := do
  let B ← getBuffer b
  if !bufferIsEndIterator b it && B.strategy.rejectsInsert then pure 0
  else trivialBufferInsertDataRef1 env b it offset buf len

/-- `pb_trivial_buffer_write_data`. -/
def trivialBufferWriteData (env : Env) (b : Nat) (buf : List UInt8) : PbM Nat := do
  let B ← getBuffer b
  if B.strategy.rejectsWrite then pure 0
  else do
    let it ← bufferGetEndIterator b
    trivialBufferInsertData1 env b it 0 buf

/-- `pb_trivial_buffer_write_data_ref`. -/
def trivialBufferWriteDataRef (env : Env) (b : Nat) (buf : Ptr) (len : Nat) : PbM Nat := do
  let B ← getBuffer b
  if B.strategy.rejectsWrite then pure 0
  else do
    let it ← bufferGetEndIterator b
    trivialBufferInsertDataRef1 env b it 0 buf len

/-- `pb_trivial_buffer_extend`. -/
def trivialBufferExtend (env : Env) (b len : Nat) : PbM Nat := do
  let B ← getBuffer b
  if B.strategy.rejectsExtend then pure 0
  else
    insertPages env b (bufferGetEndIterator b)
      (fun _ insertLen => trivialBufferPageCreate env b insertLen) 0 len

/-- `pb_trivial_buffer_reserve`. The `pb_buffer_extend` it calls is the
trivial one: the mmap class has a `reserve` of its own. -/
def trivialBufferReserve (env : Env) (b size : Nat) : PbM Nat := do
  let B ← getBuffer b
  if B.strategy.rejectsExtend then pure 0
  else do
    let dataSize ← bufferGetDataSize env b
    if size ≤ dataSize then pure 0
    else trivialBufferExtend env b (size - dataSize)

/-- `pb_trivial_buffer_rewind`. -/
def trivialBufferRewind (env : Env) (b len : Nat) : PbM Nat := do
  let B ← getBuffer b
  if B.strategy.rejectsRewind then pure 0
  else
    insertPages env b (bufferGetIterator env b)
      (fun _ insertLen => trivialBufferPageCreate env b insertLen) 0 len

/-! ## Insertion of pages made from a source buffer -/

/-- The variables of a transfer loop. -/
structure TransferLoop where
  offset : Nat
  len : Nat
  inserted : Nat
  srcIt : Nat
  srcOffset : Nat
deriving DecidableEq, Repr

/-- One of the four transfer algorithms: the cut of the length from the page
size of the target, the length of the source page, the offset in it and the
length to go; the page made from a source page, a length and an offset; and
whether the source iterator moves on after every page. -/
structure TransferAlgorithm where
  cut : Nat → Nat → Nat → Nat → Nat
  make : Nat → Nat → Nat → PbM (Option Nat)
  always : Bool

def insertBufferRound (env : Env) (alg : TransferAlgorithm) (b it src : Nat)
    (s : TransferLoop) : PbM (TransferLoop ⊕ Nat) :=
  if s.len = 0 || bufferIsEndIterator src s.srcIt then pure (.inr s.inserted)
  else do
    let B ← getBuffer b
    let srcPage := s.srcIt
    let insertLen := alg.cut B.strategy.pageSize (← pageGetLen srcPage) s.srcOffset s.len
    match ← alg.make srcPage insertLen s.srcOffset with
    | none => pure (.inr s.inserted)
    | some page => do
        let insertLen ← trivialBufferInsert env b it s.offset page
        if insertLen = 0 then do
          pageDestroy page
          pure (.inr s.inserted)
        else do
          let srcOffset := s.srcOffset + insertLen
          let len := s.len - insertLen
          let inserted := s.inserted + insertLen
          if alg.always || srcOffset = (← pageGetLen srcPage) then do
            let srcIt ← bufferNextIterator env src s.srcIt
            pure (.inl ⟨0, len, inserted, srcIt, 0⟩)
          else pure (.inl ⟨0, len, inserted, s.srcIt, srcOffset⟩)

def insertBufferLoop (env : Env) (alg : TransferAlgorithm) (b it offset src len : Nat) :
    PbM Nat := do
  let srcIt ← bufferGetIterator env src
  loopM .diverges (insertBufferRound env alg b it src) (len + 1) ⟨offset, len, 0, srcIt, 0⟩

/-- The whole source page or what is left of the length. -/
def cutWhole (_pageSize srcLen _srcOffset len : Nat) : Nat :=
  if srcLen < len then srcLen else len

/-- What is left of the source page or of the length, cut at the page size. -/
def cutFragment (pageSize srcLen srcOffset len : Nat) : Nat :=
  cutLen pageSize (if wrapSub srcLen srcOffset < len then wrapSub srcLen srcOffset else len)

/-- A page that shares the data of a source page. -/
def makeSharedPage (env : Env) (srcPage insertLen srcOffset : Nat) : PbM (Option Nat) :=
  pageTransfer env srcPage insertLen srcOffset

/-- A new page with a copy of the bytes of a source page. -/
def makeCopiedPage (env : Env) (b srcPage insertLen srcOffset : Nat) : PbM (Option Nat) := do
  match ← trivialBufferPageCreate env b insertLen with
  | none => pure none
  | some page => do
      let S ← getPage srcPage
      let bs ← memRead (S.dataVec.base.add srcOffset) (← pageGetLen page)
      memWrite (← pageGetBase page) bs
      pure (some page)

/-- `pb_trivial_buffer_insert_buffer1`: shares whole pages. It has no source
offset, and moves on after every page. -/
def transferAlgorithm1 (env : Env) : TransferAlgorithm where
  cut := cutWhole
  make := makeSharedPage env
  always := true

/-- `pb_trivial_buffer_insert_buffer2`: copies whole pages. -/
def transferAlgorithm2 (env : Env) (b : Nat) : TransferAlgorithm where
  cut := cutWhole
  make := makeCopiedPage env b
  always := false

/-- `pb_trivial_buffer_insert_buffer3`: shares fragments. -/
def transferAlgorithm3 (env : Env) : TransferAlgorithm where
  cut := cutFragment
  make := makeSharedPage env
  always := false

/-- `pb_trivial_buffer_insert_buffer4`: copies fragments. -/
def transferAlgorithm4 (env : Env) (b : Nat) : TransferAlgorithm where
  cut := cutFragment
  make := makeCopiedPage env b
  always := false

def transferAlgorithm (env : Env) (b : Nat) (strategy : Strategy) : TransferAlgorithm :=
  match strategy.cloneOnWrite, strategy.fragmentAsTarget with
  | false, false => transferAlgorithm1 env
  | true, false => transferAlgorithm2 env b
  | false, true => transferAlgorithm3 env
  | true, true => transferAlgorithm4 env b

/-- `pb_trivial_buffer_insert_buffer`. -/
def trivialBufferInsertBuffer (env : Env) (b it offset src len : Nat) : PbM Nat := do
  let B ← getBuffer b
  if !bufferIsEndIterator b it && B.strategy.rejectsInsert then pure 0
  else insertBufferLoop env (transferAlgorithm env b B.strategy) b it offset src len

/-- `pb_trivial_buffer_write_buffer`. -/
def trivialBufferWriteBuffer (env : Env) (b src len : Nat) : PbM Nat := do
  let B ← getBuffer b
  if B.strategy.rejectsWrite then pure 0
  else do
    let it ← bufferGetEndIterator b
    insertBufferLoop env (transferAlgorithm env b B.strategy) b it 0 src len

/-! ## Removal -/

/-- `pb_trivial_buffer_seek` and `_trim`: the iterator, the length to go and
what was removed. -/
structure RemoveLoop where
  it : Nat
  len : Nat
  removed : Nat
deriving DecidableEq, Repr

/-- Taking a page out of its ring and destroying it. -/
def unlinkPage (page : Nat) : PbM Unit := do
  let P ← getPage page
  let nextPage ← deref P.next
  modifyPage (← deref P.prev) (fun Q => { Q with next := some nextPage })
  modifyPage nextPage (fun Q => { Q with prev := P.prev })
  modifyPage page (fun Q => { Q with prev := none, next := none })
  pageDestroy page

/-- One round of `seek`: shorten the page at its head, drop it when nothing
is left. -/
def seekRound (env : Env) (b : Nat) (s : RemoveLoop) : PbM (RemoveLoop ⊕ Nat) :=
  if s.len = 0 || bufferIsEndIterator b s.it then pure (.inr s.removed)
  else do
    let page := s.it
    let pageLen ← pageGetLen page
    let seekLen := if pageLen < s.len then pageLen else s.len
    modifyPage page (fun P => { P with
      dataVec := ⟨P.dataVec.base.add seekLen, P.dataVec.len - seekLen⟩ })
    let it ←
      if pageLen - seekLen = 0 then do
        let it ← bufferNextIterator env b s.it
        unlinkPage page
        pure it
      else pure s.it
    if seekLen = 0 then pure (.inr s.removed)
    else do
      trivialBufferDecrementDataSize b seekLen
      pure (.inl ⟨it, s.len - seekLen, s.removed + seekLen⟩)

/-- One round of `trim`: shorten the page at its end, drop it when nothing is
left. -/
def trimRound (env : Env) (b : Nat) (s : RemoveLoop) : PbM (RemoveLoop ⊕ Nat) :=
  if s.len = 0 || bufferIsEndIterator b s.it then pure (.inr s.removed)
  else do
    let page := s.it
    let pageLen ← pageGetLen page
    let trimLen := if pageLen < s.len then pageLen else s.len
    modifyPage page (fun P => { P with
      dataVec := { P.dataVec with len := P.dataVec.len - trimLen } })
    let it ←
      if pageLen - trimLen = 0 then do
        let it ← bufferPrevIterator env b s.it
        unlinkPage page
        pure it
      else pure s.it
    if trimLen = 0 then pure (.inr s.removed)
    else do
      trivialBufferDecrementDataSize b trimLen
      pure (.inl ⟨it, s.len - trimLen, s.removed + trimLen⟩)

/-- The bump that ends `seek`, `trim` and the overwrites. -/
def bumpIfPositive (b n : Nat) : PbM Unit :=
  if n > 0 then trivialBufferIncrementDataRevision b else pure ()

/-- `pb_trivial_buffer_seek`. -/
def trivialBufferSeek (env : Env) (b len : Nat) : PbM Nat := do
  let B ← getBuffer b
  if B.strategy.rejectsSeek then pure 0
  else do
    let it ← bufferGetIterator env b
    let seeked ← loopM .diverges (seekRound env b) (len + 1) ⟨it, len, 0⟩
    bumpIfPositive b seeked
    pure seeked

/-- `pb_trivial_buffer_trim`. -/
def trivialBufferTrim (env : Env) (b len : Nat) : PbM Nat := do
  let B ← getBuffer b
  if B.strategy.rejectsTrim then pure 0
  else do
    let it ← bufferGetEndIterator b
    let it ← bufferPrevIterator env b it
    let trimmed ← loopM .diverges (trimRound env b) (len + 1) ⟨it, len, 0⟩
    bumpIfPositive b trimmed
    pure trimmed

/-- One round of `pb_trivial_buffer_clear_impl` with the given `next_iterator`. -/
def clearRound (b : Nat) (nextIterator : Nat → PbM Nat) (it : Nat) : PbM (Nat ⊕ Unit) :=
  if bufferIsEndIterator b it then pure (.inr ())
  else do
    let page := it
    let it ← nextIterator it
    unlinkPage page
    pure (.inl it)

/-- `pb_trivial_buffer_clear_impl`. -/
def trivialBufferClearImpl (b : Nat) (getIterator : PbM Nat) (nextIterator : Nat → PbM Nat)
    (fuel : Heap → Nat) : PbM Unit := do
  trivialBufferIncrementDataRevision b
  modifyBuffer b (fun B => { B with dataSize := 0 })
  let it ← getIterator
  let h ← get
  loopM .diverges (clearRound b nextIterator) (fuel h) it

/-- `pb_trivial_buffer_clear`. -/
def trivialBufferClear (env : Env) (b : Nat) : PbM Unit :=
  trivialBufferClearImpl b (bufferGetIterator env b) (bufferNextIterator env b)
    (fun h => h.next + 1)

/-- `pb_trivial_pure_buffer_clear`. -/
def trivialPureBufferClear (b : Nat) : PbM Unit :=
  trivialBufferClearImpl b (trivialBufferGetIterator b) trivialBufferNextIterator
    (fun h => h.next + 1)

/-! ## Overwriting and reading -/

/-- The variables of `pb_trivial_buffer_overwrite_data`. -/
structure OverwriteLoop where
  it : Nat
  len : Nat
  written : Nat
deriving DecidableEq, Repr

/-- The test before a page is written to: may the bytes be changed in place? -/
def mustDupPageData (cloneOnWrite : Bool) (D : Data) : Bool :=
  !cloneOnWrite || D.useCount > 1 || D.responsibility = .referenced

/-- The page is made writable, by duplicating its data where that is needed;
`false` if that fails. -/
def ensureWritable (env : Env) (b page : Nat) : PbM Bool := do
  let B ← getBuffer b
  let P ← getPage page
  let D ← getData (← deref P.data)
  if mustDupPageData B.strategy.cloneOnWrite D then trivialBufferDupPageData env b page
  else pure true

def overwriteDataRound (env : Env) (b : Nat) (buf : List UInt8) (s : OverwriteLoop) :
    PbM (OverwriteLoop ⊕ Nat) :=
  if s.len = 0 || bufferIsEndIterator b s.it then pure (.inr s.written)
  else do
    let page := s.it
    if ← ensureWritable env b page then do
      let pageLen ← pageGetLen page
      let writeLen := if pageLen < s.len then pageLen else s.len
      if writeLen = 0 then pure (.inr s.written)
      else do
        let bs ← callerSlice buf s.written writeLen
        memWrite (← pageGetBase page) bs
        let it ← bufferNextIterator env b s.it
        pure (.inl ⟨it, s.len - writeLen, s.written + writeLen⟩)
    else pure (.inr s.written)

/-- `pb_trivial_buffer_overwrite_data`. -/
def trivialBufferOverwriteData (env : Env) (b : Nat) (buf : List UInt8) : PbM Nat := do
  let B ← getBuffer b
  if B.strategy.rejectsOverwrite then pure 0
  else do
    let it ← bufferGetIterator env b
    let written ←
      loopM .diverges (overwriteDataRound env b buf) (buf.length + 1) ⟨it, buf.length, 0⟩
    bumpIfPositive b written
    pure written

/-- The variables of `pb_trivial_buffer_overwrite_buffer`. -/
structure OverwriteBufferLoop where
  it : Nat
  srcIt : Nat
  len : Nat
  written : Nat
  offset : Nat
  srcOffset : Nat
deriving DecidableEq, Repr

/-- The `write_len` of a round: the whole lengths of the two pages count, not
what is left of them. -/
def overwriteLen (pageLen srcLen len : Nat) : Nat :=
  let writeLen := if pageLen < len then pageLen else len
  if srcLen < writeLen then srcLen else writeLen

/-- The step of an iterator with an offset that has come to the end of its
page. -/
def stepWhenFull (env : Env) (b it offset : Nat) : PbM (Nat × Nat) := do
  let pageLen ← pageGetLen it
  if offset = pageLen then do
    let it ← bufferNextIterator env b it
    pure (it, 0)
  else pure (it, offset)

def overwriteBufferRound (env : Env) (b src : Nat) (s : OverwriteBufferLoop) :
    PbM (OverwriteBufferLoop ⊕ Nat) :=
  if s.len = 0 || bufferIsEndIterator b s.it || bufferIsEndIterator src s.srcIt then
    pure (.inr s.written)
  else do
    let page := s.it
    let srcPage := s.srcIt
    if ← ensureWritable env b page then do
      let pageLen ← pageGetLen page
      let srcLen ← pageGetLen srcPage
      let writeLen := overwriteLen pageLen srcLen s.len
      if writeLen = 0 then pure (.inr s.written)
      else do
        let bs ← memRead ((← pageGetBase srcPage).add s.srcOffset) writeLen
        memWrite ((← pageGetBase page).add s.offset) bs
        let (it, offset) ← stepWhenFull env b page (s.offset + writeLen)
        let (srcIt, srcOffset) ← stepWhenFull env src srcPage (s.srcOffset + writeLen)
        pure (.inl ⟨it, srcIt, s.len - writeLen, s.written + writeLen, offset, srcOffset⟩)
    else pure (.inr s.written)

/-- `pb_trivial_buffer_overwrite_buffer`. -/
def trivialBufferOverwriteBuffer (env : Env) (b src len : Nat) : PbM Nat := do
  let B ← getBuffer b
  if B.strategy.rejectsOverwrite then pure 0
  else do
    let it ← bufferGetIterator env b
    let srcIt ← bufferGetIterator env src
    let written ←
      loopM .diverges (overwriteBufferRound env b src) (len + 1) ⟨it, srcIt, len, 0, 0, 0⟩
    bumpIfPositive b written
    pure written

/-- The variables of `pb_trivial_buffer_read_data`, with the bytes copied to
the caller's memory so far. -/
structure ReadLoop where
  it : Nat
  len : Nat
  out : List UInt8
deriving DecidableEq, Repr

def readDataRound (env : Env) (b : Nat) (s : ReadLoop) : PbM (ReadLoop ⊕ List UInt8) :=
  if s.len = 0 || bufferIsEndIterator b s.it then pure (.inr s.out)
  else do
    let P ← getPage s.it
    let readLen := if P.dataVec.len < s.len then P.dataVec.len else s.len
    let bs ← memRead P.dataVec.base readLen
    let it ← bufferNextIterator env b s.it
    pure (.inl ⟨it, s.len - readLen, s.out ++ bs⟩)

/-- `pb_trivial_buffer_read_data`; the count it returns is the number of
bytes. -/
def trivialBufferReadData (env : Env) (b len : Nat) : PbM (List UInt8) := do
  let it ← bufferGetIterator env b
  let h ← get
  loopM .diverges (readDataRound env b) (len + h.next + 1) ⟨it, len, []⟩

/-! ## Creation -/

/-- `pb_trivial_buffer_create_with_strategy`. The strategy is copied into a
block of its own, so creation makes two requests. -/
def trivialBufferCreate (env : Env) (strategy : Strategy) : PbM (Option Nat) := do
  match ← request env with
  | none => pure none
  | some _ => do
      match ← request env with
      | none => pure none
      | some b => do
          modify (·.setPage b (some { prev := some b, next := some b }))
          modify (·.setBuffer b (some { strategy := strategy, operations := .trivial }))
          pure (some b)

/-- Freeing the `struct pb_trivial_buffer` with its `page_end`. -/
def freeBuffer (b : Nat) : PbM Unit := fun h =>
  if (h.buffers b).isSome then .ok ((), (h.setBuffer b none).setPage b none)
  else .error .badFree

/-- `pb_trivial_buffer_destroy`. -/
def trivialBufferDestroy (env : Env) (b : Nat) : PbM Unit := do
  trivialBufferClear env b
  freeBuffer b

end Pb
