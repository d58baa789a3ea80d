import PageBuf.Model.Mmap

/-!
# Readers — byte iterators, the data reader and the line reader

The readers are values: what a function changes in `*data_reader` or
`*line_reader` is in the reader it returns.
-/

namespace Pb

open StateRun

/-! ## Byte iterators -/

/-- `struct pb_buffer_byte_iterator`; `none` points to the null character
that stands for the end. -/
structure ByteIterator where
  bufferIterator : Nat
  pageOffset : Nat
  currentByte : Option Ptr
deriving DecidableEq, Repr

/-- `pb_buffer_byte_iterator_get_current_byte`. -/
def byteIteratorGetCurrentByte (bi : ByteIterator) : PbM UInt8 :=
  match bi.currentByte with
  | none => pure 0
  | some p => do
      let bs ← memRead p 1
      pure (bs.headD 0)

/-- The byte iterator at an offset of a page that is not the end. -/
def byteIteratorAt (it pageOffset : Nat) : PbM ByteIterator := do
  let base ← pageGetBase it
  pure ⟨it, pageOffset, some (base.add pageOffset)⟩

/-- `pb_trivial_buffer_get_byte_iterator`. -/
def bufferGetByteIterator (env : Env) (b : Nat) : PbM ByteIterator := do
  let it ← bufferGetIterator env b
  if bufferIsEndIterator b it then pure ⟨it, 0, none⟩
  else byteIteratorAt it 0

/-- `pb_trivial_buffer_get_end_byte_iterator`. -/
def bufferGetEndByteIterator (b : Nat) : PbM ByteIterator := do
  let it ← bufferGetEndIterator b
  pure ⟨it, 0, none⟩

/-- `pb_trivial_buffer_is_end_byte_iterator`. -/
def bufferIsEndByteIterator (b : Nat) (bi : ByteIterator) : Bool :=
  bufferIsEndIterator b bi.bufferIterator

/-- `pb_trivial_buffer_cmp_byte_iterator`. -/
def bufferCmpByteIterator (lvalue rvalue : ByteIterator) : Bool :=
  bufferCmpIterator lvalue.bufferIterator rvalue.bufferIterator &&
    lvalue.pageOffset = rvalue.pageOffset

/-- `pb_trivial_buffer_next_byte_iterator`. -/
def bufferNextByteIterator (env : Env) (b : Nat) (bi : ByteIterator) : PbM ByteIterator := do
  let pageOffset := bi.pageOffset + 1
  if pageOffset ≥ (← pageGetLen bi.bufferIterator) then do
    let it ← bufferNextIterator env b bi.bufferIterator
    if bufferIsEndIterator b it then pure ⟨it, 0, none⟩
    else byteIteratorAt it 0
  else byteIteratorAt bi.bufferIterator pageOffset

/-- `pb_trivial_buffer_prev_byte_iterator`. -/
def bufferPrevByteIterator (env : Env) (b : Nat) (bi : ByteIterator) : PbM ByteIterator := do
  if bi.pageOffset = 0 then do
    let it ← bufferPrevIterator env b bi.bufferIterator
    let pageOffset ← pageGetLen it
    if bufferIsEndIterator b it then pure ⟨it, pageOffset, none⟩
    else byteIteratorAt it (wrapSub pageOffset 1)
  else byteIteratorAt bi.bufferIterator (bi.pageOffset - 1)

/-! ## The data reader -/

/-- `struct pb_data_reader`. -/
structure DataReader where
  buffer : Nat
  bufferIterator : Nat
  bufferDataRevision : Nat
  pageOffset : Nat
deriving DecidableEq, Repr

/-- `pb_data_reader_reset`. -/
def dataReaderReset (env : Env) (r : DataReader) : PbM DataReader := do
  let it ← bufferGetIterator env r.buffer
  let revision ← bufferGetDataRevision r.buffer
  pure { r with bufferIterator := it, bufferDataRevision := revision, pageOffset := 0 }

/-- `pb_data_reader_create`; the reader itself takes one request. -/
def dataReaderCreate (env : Env) (b : Nat) : PbM (Option DataReader) := do
  match ← request env with
  | none => pure none
  | some _ => return some (← dataReaderReset env ⟨b, 0, 0, 0⟩)

/-- The variables of `pb_data_reader_read`. -/
structure ReaderLoop where
  it : Nat
  pageOffset : Nat
  len : Nat
  out : List UInt8
deriving DecidableEq, Repr

/-- One round of `pb_data_reader_read`. Where the source returns from inside
the loop the iterator is not at the end, so the code behind the loop does
nothing and the round leaves the loop instead. -/
def dataReaderRound (env : Env) (b : Nat) (s : ReaderLoop) : PbM (ReaderLoop ⊕ ReaderLoop) :=
  if s.len = 0 || bufferIsEndIterator b s.it then pure (.inr s)
  else do
    let P ← getPage s.it
    let left := wrapSub P.dataVec.len s.pageOffset
    let readLen := if left < s.len then left else s.len
    let bs ← memRead (P.dataVec.base.add s.pageOffset) readLen
    let pageOffset := s.pageOffset + readLen
    if pageOffset ≠ P.dataVec.len then
      pure (.inr ⟨s.it, pageOffset, s.len - readLen, s.out ++ bs⟩)
    else do
      let it ← bufferNextIterator env b s.it
      pure (.inl ⟨it, 0, s.len - readLen, s.out ++ bs⟩)

/-- `pb_data_reader_read`. -/
def dataReaderRead (env : Env) (r : DataReader) (len : Nat) :
    PbM (List UInt8 × DataReader) := do
  let b := r.buffer
  let revision ← bufferGetDataRevision b
  let r ← if revision ≠ r.bufferDataRevision then dataReaderReset env r else pure r
  let it ←
    if r.pageOffset = (← pageGetLen r.bufferIterator) then
      bufferNextIterator env b r.bufferIterator
    else pure r.bufferIterator
  let h ← get
  let s ← loopM .diverges (dataReaderRound env b) (len + h.next + 1) ⟨it, r.pageOffset, len, []⟩
  if bufferIsEndIterator b s.it then do
    let it ← bufferPrevIterator env b s.it
    let pageOffset ← pageGetLen it
    pure (s.out, { r with bufferIterator := it, pageOffset := pageOffset })
  else pure (s.out, { r with bufferIterator := s.it, pageOffset := s.pageOffset })

/-- One round of the walk in `pb_data_reader_consume`: the loop state is the
iterator and `seeked`. -/
def consumeRound (env : Env) (b readerIt : Nat) (s : Nat × Nat) :
    PbM (Nat × Nat ⊕ Nat × Nat) :=
  if bufferIsEndIterator b s.1 || bufferCmpIterator readerIt s.1 then pure (.inr s)
  else do
    let len ← pageGetLen s.1
    let it ← bufferNextIterator env b s.1
    pure (.inl (it, s.2 + len))

/-- `pb_data_reader_consume`: the bytes read, the count returned, and the
reader. -/
def dataReaderConsume (env : Env) (r : DataReader) (len : Nat) :
    PbM (List UInt8 × Nat × DataReader) := do
  let b := r.buffer
  let (out, r) ← dataReaderRead env r len
  let it ← bufferGetIterator env b
  let h ← get
  let (it, seeked) ← loopM .diverges (consumeRound env b r.bufferIterator) (h.next + 1) (it, 0)
  let seeked :=
    if bufferCmpIterator r.bufferIterator it && r.pageOffset > 0 then seeked + r.pageOffset
    else seeked
  let seeked ← bufferSeek env b seeked
  pure (out, seeked, r)

/-! ## The line reader -/

/-- `PB_LINE_READER_MAX_LINE_SIZE`. -/
def lineReaderMaxLineSize : Nat := 16777216

/-- `struct pb_line_reader`. -/
structure LineReader where
  buffer : Nat
  byteIterator : ByteIterator
  bufferDataRevision : Nat
  bufferOffset : Nat
  hasCr : Bool
  hasLine : Bool
  isTerminated : Bool
  isTerminatedWithCr : Bool
deriving DecidableEq, Repr

/-- `pb_line_reader_reset`. -/
def lineReaderReset (env : Env) (r : LineReader) : PbM LineReader := do
  let bi ← bufferGetByteIterator env r.buffer
  let revision ← bufferGetDataRevision r.buffer
  pure {
    buffer := r.buffer, byteIterator := bi, bufferDataRevision := revision
    bufferOffset := 0, hasCr := false, hasLine := false
    isTerminated := false, isTerminatedWithCr := false }

/-- `pb_line_reader_create`. -/
def lineReaderCreate (env : Env) (b : Nat) : PbM (Option LineReader) := do
  match ← request env with
  | none => pure none
  | some _ => do
      let r ← lineReaderReset env
        { buffer := b, byteIterator := ⟨0, 0, none⟩, bufferDataRevision := 0
          bufferOffset := 0, hasCr := false, hasLine := false
          isTerminated := false, isTerminatedWithCr := false }
      pure (some r)

/-- The reset on a changed revision that begins the functions of the line
reader. -/
def lineReaderSync (env : Env) (r : LineReader) : PbM LineReader := do
  let revision ← bufferGetDataRevision r.buffer
  if r.bufferDataRevision ≠ revision then lineReaderReset env r else pure r

/-- One round of the search in `pb_line_reader_has_line`: `(true, r)` is a
return of `true`, `(false, r)` the end of the buffer. -/
def hasLineRound (env : Env) (r : LineReader) : PbM (LineReader ⊕ Bool × LineReader) :=
  if bufferIsEndByteIterator r.buffer r.byteIterator then pure (.inr (false, r))
  else do
    let c ← byteIteratorGetCurrentByte r.byteIterator
    if c = 10 then pure (.inr (true, { r with hasLine := true }))
    else do
      let r := { r with hasCr := c = 13 }
      if r.bufferOffset = lineReaderMaxLineSize then
        pure (.inr (true, { r with hasCr := false, hasLine := true }))
      else do
        let bi ← bufferNextByteIterator env r.buffer r.byteIterator
        pure (.inl { r with byteIterator := bi, bufferOffset := r.bufferOffset + 1 })

/-- `pb_line_reader_has_line`. -/
def lineReaderHasLine (env : Env) (r : LineReader) : PbM (Bool × LineReader) := do
  let r ← lineReaderSync env r
  if r.hasLine then pure (true, r)
  else do
    let size ← bufferGetDataSize env r.buffer
    if size = 0 then pure (false, r)
    else do
      let h ← get
      let (found, r) ← loopM .diverges (hasLineRound env) (size + h.next + 1) r
      if found then pure (true, r)
      else do
        -- reset back to last position
        let bi ← bufferPrevByteIterator env r.buffer r.byteIterator
        let r := { r with byteIterator := bi, bufferOffset := wrapSub r.bufferOffset 1 }
        if r.isTerminatedWithCr then pure (true, { r with hasLine := true })
        else if r.isTerminated then pure (true, { r with hasCr := false, hasLine := true })
        else pure (false, r)

/-- `pb_line_reader_get_line_len`. -/
def lineReaderGetLineLen (env : Env) (r : LineReader) : PbM (Nat × LineReader) := do
  let r ← lineReaderSync env r
  if !r.hasLine then pure (0, r)
  else if r.hasCr then pure (wrapSub r.bufferOffset 1, r)
  else pure (r.bufferOffset, r)

/-- The variables of `pb_line_reader_get_line_data`. -/
structure LineDataLoop where
  it : Nat
  len : Nat
  lineLen : Nat
  out : List UInt8
deriving DecidableEq, Repr

def getLineDataRound (env : Env) (b : Nat) (s : LineDataLoop) :
    PbM (LineDataLoop ⊕ List UInt8) :=
  if s.len = 0 || s.lineLen = 0 || bufferIsEndIterator b s.it then pure (.inr s.out)
  else do
    let P ← getPage s.it
    let toGet := if P.dataVec.len < s.len then P.dataVec.len else s.len
    let toGet := if toGet < s.lineLen then toGet else s.lineLen
    let bs ← memRead P.dataVec.base toGet
    let it ← bufferNextIterator env b s.it
    pure (.inl ⟨it, s.len - toGet, s.lineLen - toGet, s.out ++ bs⟩)

/-- `pb_line_reader_get_line_data`. -/
def lineReaderGetLineData (env : Env) (r : LineReader) (len : Nat) :
    PbM (List UInt8 × LineReader) := do
  let r ← lineReaderSync env r
  if !r.hasLine then pure ([], r)
  else do
    let (lineLen, r) ← lineReaderGetLineLen env r
    let it ← bufferGetIterator env r.buffer
    let h ← get
    let out ← loopM .diverges (getLineDataRound env r.buffer) (len + h.next + 1)
      ⟨it, len, lineLen, []⟩
    pure (out, r)

/-- `pb_line_reader_seek_line`. -/
def lineReaderSeekLine (env : Env) (r : LineReader) : PbM (Nat × LineReader) := do
  let r ← lineReaderSync env r
  if !r.hasLine then pure (0, r)
  else do
    let toSeek := if r.isTerminated then r.bufferOffset else r.bufferOffset + 1
    let toSeek ← bufferSeek env r.buffer toSeek
    let r ← lineReaderReset env r
    pure (toSeek, r)

/-- `pb_line_reader_is_crlf`. -/
def lineReaderIsCrlf (r : LineReader) : Bool := r.hasCr

/-- `pb_line_reader_is_end`. -/
def lineReaderIsEnd (r : LineReader) : Bool :=
  bufferIsEndByteIterator r.buffer r.byteIterator

/-- `pb_line_reader_terminate_line`. -/
def lineReaderTerminateLine (r : LineReader) : LineReader := { r with isTerminated := true }

/-- `pb_line_reader_terminate_line_check_cr`. -/
def lineReaderTerminateLineCheckCr (r : LineReader) : LineReader :=
  { r with isTerminatedWithCr := true }

end Pb
