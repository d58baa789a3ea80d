import PageBuf.Lib.Ring
import PageBuf.Lib.Holders
import PageBuf.Model.Readers
import Mathlib.Logic.Relation

/-!
# System — any number of buffers, any sequence of operations

What can be observed of a state, the operations a client may call on trivial
buffers, what a correct call is, and the runs of a client. Runs go through
refused allocations as well: `Env` decides about every request.
-/

namespace Pb

open StateRun

/-! ## Observations -/

namespace Heap

def nextOf (h : Heap) (p : Nat) : Option Nat := (h.pages p).bind Page.next

def prevOf (h : Heap) (p : Nat) : Option Nat := (h.pages p).bind Page.prev

def dataOf (h : Heap) (p : Nat) : Option Nat := (h.pages p).bind Page.data

def vecOf (h : Heap) (p : Nat) : DataVec := ((h.pages p).getD {}).dataVec

def lenOf (h : Heap) (p : Nat) : Nat := (h.vecOf p).len

/-- The bytes a page stands for. -/
def pageBytes (h : Heap) (p : Nat) : List UInt8 := h.bytes (h.vecOf p).base (h.lenOf p)

/-- The bytes of a list of pages, in order. -/
def flat (h : Heap) (l : List Nat) : List UInt8 := l.flatMap h.pageBytes

/-- The pages of a buffer in ring order. -/
def pagesOf (h : Heap) (b : Nat) : List Nat :=
  match h.nextOf b with
  | some p => Ring.walk h.nextOf b h.next p
  | none => []

/-- The content of a buffer: its pages' bytes in ring order. -/
def content (h : Heap) (b : Nat) : List UInt8 := h.flat (h.pagesOf b)

/-- The number of page objects that refer to a `pb_data`. -/
def refs (h : Heap) (d : Nat) : Nat := RefCount.holders h.next h.dataOf d

/-- A `uint16_t` can count the users of every `pb_data`. -/
def Small (h : Heap) : Prop := ∀ d, h.refs d ≤ 65535

/-- A buffer made by `pb_trivial_buffer_create`. -/
def IsTrivial (h : Heap) (b : Nat) : Prop :=
  ∃ B, h.buffers b = some B ∧ B.operations = .trivial

/-- The end iterator of a buffer, or one of its pages with an offset inside. -/
def IsPosition (h : Heap) (b it offset : Nat) : Prop :=
  it = b ∨ it ∈ h.pagesOf b ∧ offset < h.lenOf it

/-- The place in the content that a page iterator and an offset stand for. -/
def positionOf (h : Heap) (b it offset : Nat) : Nat :=
  (h.flat ((h.pagesOf b).takeWhile (· ≠ it))).length + min offset (h.lenOf it)

/-- The byte iterator stands for the `k`th byte of the content, or for its end. -/
def IsBytePosition (h : Heap) (b : Nat) (bi : ByteIterator) (k : Nat) : Prop :=
  (bi = ⟨b, 0, none⟩ ∧ k = (h.content b).length) ∨
    ∃ l₁ p l₂ off, h.pagesOf b = l₁ ++ p :: l₂ ∧ off < h.lenOf p ∧
      bi = ⟨p, off, some ((h.vecOf p).base.add off)⟩ ∧ k = (h.flat l₁).length + off

/-- Memory of the caller that may be read. -/
def IsCallerMemory (h : Heap) (buf : Ptr) (len : Nat) : Prop :=
  ∃ c, buf.region = .caller c ∧ buf.offset + len ≤ h.callerLen c

/-- Nothing is allocated. The caller's memory and the files are arbitrary. -/
def initial (mem : Region → Nat → UInt8) (callerLen : Nat → Nat)
    (files : Nat → List UInt8) : Heap where
  next := 0
  calls := 0
  pages := fun _ => none
  datas := fun _ => none
  buffers := fun _ => none
  blocks := fun _ => none
  mem := mem
  callerLen := callerLen
  overread := false
  mmapAllocators := fun _ => none
  mappings := fun _ => none
  files := files
  unlinked := fun _ => false

end Heap

/-! ## Operations -/

/-- The calls on trivial buffers. The second buffer of a transfer may be of
any class. -/
inductive Op where
  | create (strategy : Strategy)
  | destroy (b : Nat)
  | writeData (b : Nat) (buf : List UInt8)
  | writeDataRef (b : Nat) (buf : Ptr) (len : Nat)
  | writeBuffer (b src len : Nat)
  | insertData (b it offset : Nat) (buf : List UInt8)
  | insertDataRef (b it offset : Nat) (buf : Ptr) (len : Nat)
  | insertBuffer (b it offset src len : Nat)
  | extend (b len : Nat)
  | reserve (b size : Nat)
  | rewind (b len : Nat)
  | seek (b len : Nat)
  | trim (b len : Nat)
  | overwriteData (b : Nat) (buf : List UInt8)
  | readData (b len : Nat)
  | clear (b : Nat)

/-- What a call returns. -/
inductive Ret where
  | unit
  | count (n : Nat)
  | bytes (bs : List UInt8)
  | buffer (b : Option Nat)
deriving DecidableEq, Repr

/-- Running a call. -/
def exec (env : Env) : Op → PbM Ret
  | .create strategy => return .buffer (← trivialBufferCreate env strategy)
  | .destroy b => do trivialBufferDestroy env b; return .unit
  | .writeData b buf => return .count (← trivialBufferWriteData env b buf)
  | .writeDataRef b buf len => return .count (← trivialBufferWriteDataRef env b buf len)
  | .writeBuffer b src len => return .count (← trivialBufferWriteBuffer env b src len)
  | .insertData b it offset buf =>
      return .count (← trivialBufferInsertData env b it offset buf)
  | .insertDataRef b it offset buf len =>
      return .count (← trivialBufferInsertDataRef env b it offset buf len)
  | .insertBuffer b it offset src len =>
      return .count (← trivialBufferInsertBuffer env b it offset src len)
  | .extend b len => return .count (← trivialBufferExtend env b len)
  | .reserve b size => return .count (← trivialBufferReserve env b size)
  | .rewind b len => return .count (← trivialBufferRewind env b len)
  | .seek b len => return .count (← trivialBufferSeek env b len)
  | .trim b len => return .count (← trivialBufferTrim env b len)
  | .overwriteData b buf => return .count (← trivialBufferOverwriteData env b buf)
  | .readData b len => return .bytes (← trivialBufferReadData env b len)
  | .clear b => do trivialBufferClear env b; return .unit

/-- The buffer a call works on. -/
def Op.target : Op → Option Nat
  | .create _ => none
  | .destroy b | .writeData b _ | .writeDataRef b _ _ | .writeBuffer b _ _
  | .insertData b _ _ _ | .insertDataRef b _ _ _ _ | .insertBuffer b _ _ _ _
  | .extend b _ | .reserve b _ | .rewind b _ | .seek b _ | .trim b _
  | .overwriteData b _ | .readData b _ | .clear b => some b

/-- What the arguments of a call have to be: live trivial buffers, memory the
caller owns, lengths of type `uint64_t`, and for an insertion the end iterator
or a linked page with an offset smaller than its length. -/
def Op.Valid (h : Heap) : Op → Prop
  | .create _ => True
  | .writeDataRef b buf len => h.IsTrivial b ∧ h.IsCallerMemory buf len
  | .writeBuffer b src len => h.IsTrivial b ∧ h.IsTrivial src ∧ len < 2 ^ 64
  | .insertData b it offset _ => h.IsTrivial b ∧ h.IsPosition b it offset
  | .insertDataRef b it offset buf len =>
      h.IsTrivial b ∧ h.IsPosition b it offset ∧ h.IsCallerMemory buf len
  | .insertBuffer b it offset src len =>
      h.IsTrivial b ∧ h.IsTrivial src ∧ h.IsPosition b it offset ∧ len < 2 ^ 64
  | .destroy b | .writeData b _ | .extend b _ | .reserve b _ | .rewind b _ | .seek b _
  | .trim b _ | .overwriteData b _ | .readData b _ | .clear b => h.IsTrivial b

/-! ## Runs -/

/-- A correct call, from a state to a state in which no `pb_data` has more
users than a `uint16_t` counts. -/
structure Call (env : Env) (op : Op) (r : Ret) (h h' : Heap) : Prop where
  valid : op.Valid h
  small : h.Small
  run : exec env op h = .ok (r, h')
  small' : h'.Small

def Step (env : Env) (h h' : Heap) : Prop := ∃ op r, Call env op r h h'

/-- The states a client can bring about with trivial buffers. -/
def Reachable (env : Env) (h : Heap) : Prop :=
  ∃ mem callerLen files,
    Relation.ReflTransGen (Step env) (Heap.initial mem callerLen files) h

/-! ## Runs of any calls -/

/-- The calls on trivial buffers, `pb_buffer_overwrite_buffer` among them. -/
inductive Action where
  | op (op : Op)
  | overwriteBuffer (b src len : Nat)

/-- Running an action. -/
def perform (env : Env) : Action → PbM Ret
  | .op op => exec env op
  | .overwriteBuffer b src len => return .count (← trivialBufferOverwriteBuffer env b src len)

/-- An insertion may name the end iterator or any linked page, with any offset. -/
def Heap.IsPlaceOf (h : Heap) (b it : Nat) : Prop := it = b ∨ it ∈ h.pagesOf b

/-- What an action names is there: live trivial buffers and, for an insertion,
the end iterator or a linked page. Lengths are of type `uint64_t`. -/
def Action.Names (h : Heap) : Action → Prop
  | .op (.create _) => True
  | .op (.insertData b it _ _) => h.IsTrivial b ∧ h.IsPlaceOf b it
  | .op (.insertDataRef b it _ _ _) => h.IsTrivial b ∧ h.IsPlaceOf b it
  | .op (.insertBuffer b it _ src len) =>
      h.IsTrivial b ∧ h.IsPlaceOf b it ∧ h.IsTrivial src ∧ len < 2 ^ 64
  | .op (.writeBuffer b src len) => h.IsTrivial b ∧ h.IsTrivial src ∧ len < 2 ^ 64
  | .op (.destroy b) | .op (.writeData b _) | .op (.writeDataRef b _ _) | .op (.extend b _)
  | .op (.reserve b _) | .op (.rewind b _) | .op (.seek b _) | .op (.trim b _)
  | .op (.overwriteData b _) | .op (.readData b _) | .op (.clear b) => h.IsTrivial b
  | .overwriteBuffer b src len => h.IsTrivial b ∧ h.IsTrivial src ∧ len < 2 ^ 64

/-- One action of a client that keeps to `M`. -/
def NamedStep (env : Env) (M : Heap → Action → Prop) (h h' : Heap) : Prop :=
  ∃ (a : Action) (r : Ret), a.Names h ∧ M h a ∧ perform env a h = .ok (r, h')

/-- The states that clients bring about who keep to `M`. -/
def ReachableBy (env : Env) (M : Heap → Action → Prop) (h : Heap) : Prop :=
  ∃ mem callerLen files,
    Relation.ReflTransGen (NamedStep env M) (Heap.initial mem callerLen files) h

end Pb
