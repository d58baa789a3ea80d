import PageBuf.Model.Heap

/-!
# Data — `pb_data` and `pb_page`

Creation, sharing and release of data and pages, with the release path of
the mmap class (`pb_mmap_data_put` down to `pb_mmap_allocator_put`), which a
trivial buffer reaches when it drops its last page on a mapping.
-/

namespace Pb

open StateRun

/-! ## Creating data -/

/-- `pb_trivial_data_create`. -/
def trivialDataCreate (env : Env) (len : Nat) (allocator : BufferClass) :
    PbM (Option Nat) := do
  match ← allocatorMalloc env allocator len with
  | none => pure none
  | some buf => do
      match ← request env with
      | none => do
          allocatorFree buf
          pure none
      | some d => do
          modify (·.setData d (some {
            dataVec := ⟨buf, len⟩, responsibility := .owned, useCount := 1,
            operations := .trivial }))
          pure (some d)

/-- `pb_trivial_data_create_ref`. -/
def trivialDataCreateRef (env : Env) (buf : Ptr) (len : Nat) : PbM (Option Nat) := do
  match ← request env with
  | none => pure none
  | some d => do
      modify (·.setData d (some {
        dataVec := ⟨buf, len⟩, responsibility := .referenced, useCount := 1,
        operations := .trivial }))
      pure (some d)

/-! ## The mmap allocator's count -/

/-- `pb_mmap_allocator_get`. -/
def mmapAllocatorGet (a : Nat) : PbM Unit :=
  modifyMmapAllocator a (fun A => { A with useCount := u16Inc A.useCount })

/-- `pb_mmap_allocator_put`. Closing only gives up the descriptor, which goes
with the allocator: the bytes stay in `files`, also of an unlinked file. -/
def mmapAllocatorPut (a : Nat) : PbM Unit := do
  let A ← getMmapAllocator a
  let useCount := u16Dec A.useCount
  modify (·.setMmapAllocator a (some { A with useCount := useCount }))
  if useCount ≠ 0 then pure ()
  else do
    match A.fileFd, A.closeAction with
    | some fd, .remove =>
        modify (fun h => { h with unlinked := Function.update h.unlinked fd.file true })
    | _, _ => pure ()
    modify (·.setMmapAllocator a none)

/-- `munmap` of the whole mapping at `base`. -/
def munmap (base : Ptr) : PbM Unit := fun h =>
  match base.region with
  | .mapped m => .ok ((), h.setMapping m none)
  | _ => .ok ((), h)

/-- `PB_HASH_DEL` on the data tree; the element has to be in it. -/
def dataTreeDel (a d : Nat) : PbM Unit := do
  let A ← getMmapAllocator a
  if d ∈ A.dataTree then
    modify (·.setMmapAllocator a (some { A with dataTree := A.dataTree.erase d }))
  else throw .dangling

/-- `PB_HASH_ADD_UINT64` on the data tree. -/
def dataTreeAdd (a d : Nat) : PbM Unit :=
  modifyMmapAllocator a (fun A => { A with dataTree := d :: A.dataTree })

/-- `pb_mmap_allocator_data_destroy`. -/
def mmapAllocatorDataDestroy (a d : Nat) (obsolete : Bool) : PbM Unit := do
  if obsolete then pure () else dataTreeDel a d
  let D ← getData d
  munmap D.dataVec.base
  freeData d
  mmapAllocatorPut a

/-! ## Counting the users of data -/

/-- `pb_trivial_data_get` and `pb_mmap_data_get`, which are the same. -/
def dataGet (d : Nat) : PbM Unit :=
  modifyData d (fun D => { D with useCount := u16Inc D.useCount })

/-- What `put` does once the count is zero: the end of
`pb_trivial_data_put`, or `pb_mmap_allocator_data_destroy`. -/
def dataRelease (d : Nat) (D : Data) : PbM Unit :=
  match D.operations with
  | .trivial => do
      if D.responsibility = .owned then allocatorFree D.dataVec.base else pure ()
      freeData d
  | .mmap a _ obsolete => mmapAllocatorDataDestroy a d obsolete

/-- `pb_data_put`: `pb_trivial_data_put` or `pb_mmap_data_put`. -/
def dataPut (d : Nat) : PbM Unit := do
  let D ← getData d
  let D := { D with useCount := u16Dec D.useCount }
  modify (·.setData d (some D))
  if D.useCount ≠ 0 then pure () else dataRelease d D

/-! ## Pages -/

/-- `pb_page_set_data`. -/
def pageSetData (page data : Nat) : PbM Unit := do
  let P ← getPage page
  match P.data with
  | some old => dataPut old
  | none => pure ()
  let D ← getData data
  modifyPage page (fun P => { P with dataVec := D.dataVec, data := some data })
  dataGet data

/-- `pb_allocator_calloc` of a `pb_page`. -/
def callocPage (env : Env) : PbM (Option Nat) := do
  match ← request env with
  | none => pure none
  | some p => do
      modify (·.setPage p (some {}))
      pure (some p)

/-- `pb_page_create`. -/
def pageCreate (env : Env) (data : Nat) : PbM (Option Nat) := do
  match ← callocPage env with
  | none => pure none
  | some page => do
      pageSetData page data
      pure (some page)

/-- `pb_page_transfer`. -/
def pageTransfer (env : Env) (srcPage len srcOff : Nat) : PbM (Option Nat) := do
  match ← callocPage env with
  | none => pure none
  | some page => do
      let S ← getPage srcPage
      pageSetData page (← deref S.data)
      modifyPage page (fun P => { P with dataVec := ⟨S.dataVec.base.add srcOff, len⟩ })
      pure (some page)

/-- `pb_page_destroy`. -/
def pageDestroy (page : Nat) : PbM Unit := do
  let P ← getPage page
  dataPut (← deref P.data)
  freePage page

def pageGetLen (page : Nat) : PbM Nat := do
  return (← getPage page).dataVec.len

def pageGetBase (page : Nat) : PbM Ptr := do
  return (← getPage page).dataVec.base

/-! ## The page functions of a trivial buffer -/

/-- `pb_trivial_buffer_page_create`. -/
def trivialBufferPageCreate (env : Env) (b len : Nat) : PbM (Option Nat) := do
  let B ← getBuffer b
  match ← trivialDataCreate env len B.operations with
  | none => pure none
  | some data => do
      match ← pageCreate env data with
      | none => do
          dataPut data
          pure none
      | some page => do
          dataPut data
          pure (some page)

/-- `pb_trivial_buffer_page_create_ref`. -/
def trivialBufferPageCreateRef (env : Env) (buf : Ptr) (len : Nat) : PbM (Option Nat) := do
  match ← trivialDataCreateRef env buf len with
  | none => pure none
  | some data => do
      match ← pageCreate env data with
      | none => do
          dataPut data
          pure none
      | some page => do
          dataPut data
          pure (some page)

/-- `pb_trivial_buffer_dup_page_data`. -/
def trivialBufferDupPageData (env : Env) (b page : Nat) : PbM Bool := do
  let B ← getBuffer b
  let P ← getPage page
  match ← trivialDataCreate env P.dataVec.len B.operations with
  | none => pure false
  | some data => do
      let D ← getData data
      let bs ← memRead P.dataVec.base P.dataVec.len
      memWrite D.dataVec.base bs
      pageSetData page data
      dataPut data
      pure true

end Pb
