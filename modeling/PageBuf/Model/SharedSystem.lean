import PageBuf.Model.MmapSystem

/-!
# SharedSystem — an mmap buffer among trivial buffers

One mmap buffer and any number of trivial buffers. A transfer from the mmap
buffer into a trivial one makes pages on the mappings of the file, so that a
mapping outlives the page of the mmap buffer it was made for.
-/

namespace Pb

open StateRun

/-- The calls: those on the trivial buffers, where the second buffer of a
transfer may be the mmap buffer, and those on the mmap buffer. -/
inductive SharedOp where
  | trivial (op : Op)
  | mmap (op : MmapOp)

/-- What a call returns. -/
inductive SharedRet where
  | trivial (r : Ret)
  | mmap (r : MmapRet)
deriving DecidableEq, Repr

/-- Running a call in the system of the mmap buffer `m`. -/
def execShared (env : Env) (m : Nat) : SharedOp → PbM SharedRet
  | .trivial op => return .trivial (← exec env op)
  | .mmap op => return .mmap (← execMmap env m op)

/-- A correct transfer out of the mmap buffer into a trivial one. -/
def Op.TakesFrom (h : Heap) (m : Nat) : Op → Prop
  | .writeBuffer b src len => h.IsTrivial b ∧ src = m ∧ len < 2 ^ 64
  | .insertBuffer b it offset src len =>
      h.IsTrivial b ∧ src = m ∧ h.IsPosition b it offset ∧ len < 2 ^ 64
  | _ => False

/-- The calls on the mmap buffer except for `trim`, `overwrite_data` and
`destroy`. -/
def MmapOp.Shares : MmapOp → Prop
  | .trim _ | .overwriteData _ | .destroy => False
  | _ => True

/-- The calls that may map a block of the file. -/
def MmapOp.MapsBlocks : MmapOp → Prop
  | .readData _ | .getIterator | .nextIterator _ | .prevIterator _
  | .getByteIterator | .nextByteIterator _ | .prevByteIterator _ => True
  | _ => False

/-- The calls that may lengthen the file. -/
def MmapOp.Appends : MmapOp → Prop
  | .writeData _ | .writeDataRef _ | .extend _ | .reserve _ => True
  | _ => False

/-- What the arguments of a call have to be. -/
def SharedOp.Valid (h : Heap) (m : Nat) : SharedOp → Prop
  | .trivial op => op.Valid h ∨ op.TakesFrom h m
  | .mmap op => op.Shares ∧ op.Valid h m

def SharedOp.MapsBlocks (h : Heap) (m : Nat) : SharedOp → Prop
  | .trivial op => op.TakesFrom h m
  | .mmap op => op.MapsBlocks

def SharedOp.Appends : SharedOp → Prop
  | .trivial _ => False
  | .mmap op => op.Appends

/-- The call is a transfer out of the buffer `m`. -/
def Op.TakesOutOf (m : Nat) : Op → Prop
  | .writeBuffer _ src _ | .insertBuffer _ _ _ src _ => src = m
  | _ => False

/-- The call is about the buffer `c`: it works on it, or is a transfer out of it where it is the mmap
buffer, which may have to map blocks. -/
def SharedOp.Touches (m c : Nat) : SharedOp → Prop
  | .trivial op => op.target = some c ∨ c = m ∧ op.TakesOutOf m
  | .mmap _ => c = m

/-! ## What is still mapped -/

namespace Heap

/-- The bytes of a page on a mapping do not reach beyond it. -/
def InsideMapping (h : Heap) (p : Nat) : Prop :=
  ∀ i M, (h.vecOf p).base.region = .mapped i → h.mappings i = some M →
    (h.vecOf p).base.offset + (h.vecOf p).len ≤ M.len

/-- `d` is in the data tree of the mmap buffer, only other buffers have pages
on it, and it is a block that the mapping functions would use as it is, without
another reference: a whole one in which the head lies, or the shorter one at
the end of the file. -/
def Uncounted (h : Heap) (m d : Nat) : Prop :=
  ∃ D a off, h.datas d = some D ∧ D.operations = .mmap a off false ∧
    (∀ p ∈ h.pagesOf m, h.dataOf p ≠ some d) ∧
    (D.dataVec.len = mmapBaseSize ∧ off < h.fileHead m ∧ h.fileHead m < off + mmapBaseSize ∨
      D.dataVec.len < mmapBaseSize ∧ off + D.dataVec.len = (h.fileOf m).length)

/-- The number of mappings that an mmap allocator has made and that are
there. -/
def blocksMapped (h : Heap) (a : Nat) : Nat :=
  RefCount.holders h.next (fun d => (h.mmapFieldsOf d).map Prod.fst) a

/-- There is room for two more users in every counter. -/
structure Roomy (h : Heap) : Prop where
  users : ∀ d, h.refs d ≤ 65533
  blocks : ∀ a, h.blocksMapped a < 65535

end Heap

/-! ## Runs -/

/-- A correct call. What it maps it counts. -/
structure SharedCall (env : Env) (m : Nat) (op : SharedOp) (r : SharedRet) (h h' : Heap) :
    Prop where
  valid : op.Valid h m
  counted : op.MapsBlocks h m → ∀ d, ¬h.Uncounted m d
  run : execShared env m op h = .ok (r, h')
  roomy : h'.Roomy

def SharedStep (env : Env) (m : Nat) (h h' : Heap) : Prop :=
  ∃ op r, SharedCall env m op r h h'

/-- The states of an mmap buffer `m` among trivial buffers, some of which may
have been there before it. -/
def SharedReachable (env : Env) (m : Nat) (h : Heap) : Prop :=
  ∃ g file openAction closeAction h₀, Reachable env g ∧ g.Roomy ∧ openAction ≠ .read ∧
    mmapBufferCreate env file openAction closeAction g = .ok (some m, h₀) ∧
    Relation.ReflTransGen (SharedStep env m) h₀ h

end Pb
