import PageBuf.Invariant.View

/-!
# Core — the invariant of the heap

`Core h R F X` is what holds between any two steps inside an operation: the
rings `R`, the pages `F` that are allocated but not linked yet, and the
`pb_data` references `X` a function still holds in its hands. It has five
parts, by what they speak of:

* `Links`    — the rings, and that every live page is in one of them or in `F`
* `Views`    — every page but `page_end` has data, in whose region it lies
* `Objs`     — the `pb_data` are counted exactly and own their blocks
* `Allocs`   — the mmap allocators are counted exactly and own their mappings
* `Writable` — pages a buffer may write in place lie inside their data
-/

namespace Pb

open StateRun Function Ring RefCount

/-! ## What a `pb_data` is, apart from its count -/

structure Shape where
  dataVec : DataVec
  responsibility : Responsibility
  operations : DataClass
deriving DecidableEq, Repr

def Data.shape (D : Data) : Shape := ⟨D.dataVec, D.responsibility, D.operations⟩

def DataClass.allocator : DataClass → Option Nat
  | .trivial => none
  | .mmap a _ _ => some a

def BufferClass.allocator : BufferClass → Option Nat
  | .trivial => none
  | .mmap a => some a

namespace Heap

def shapeOf (h : Heap) (d : Nat) : Option Shape := (h.datas d).map Data.shape

/-- A buffer without its counters. -/
def kindOf (h : Heap) (b : Nat) : Option (Strategy × BufferClass) :=
  (h.buffers b).map (fun B => (B.strategy, B.operations))

/-- The allocator a `pb_mmap_data` holds. -/
def allocatorOf (h : Heap) (d : Nat) : Option Nat :=
  (h.shapeOf d).bind (fun s => s.operations.allocator)

/-- The allocator an mmap buffer holds. -/
def bufferAllocatorOf (h : Heap) (b : Nat) : Option Nat :=
  (h.kindOf b).bind (fun k => k.2.allocator)

/-- The number of data and buffers that hold an mmap allocator. -/
def allocRefs (h : Heap) (a : Nat) : Nat :=
  holders h.next h.allocatorOf a + holders h.next h.bufferAllocatorOf a

/-- The references to a `pb_data`, from pages and from the hands `X`. -/
def count (h : Heap) (X : List Nat) (d : Nat) : Nat := h.refs d + X.count d

/-- The bytes of the page lie inside its data, and the data is not mapped. -/
def InData (h : Heap) (p : Nat) : Prop :=
  ∃ d s, h.dataOf p = some d ∧ h.shapeOf d = some s ∧ s.operations = .trivial ∧
    s.dataVec.base.offset ≤ (h.vecOf p).base.offset ∧
    (h.vecOf p).base.offset + h.lenOf p ≤ s.dataVec.base.offset + s.dataVec.len

/-- The buffer may change the bytes of its pages in place. -/
def WritesInPlace (h : Heap) (b : Nat) : Prop :=
  ∃ σ, h.kindOf b = some (σ, .trivial) ∧ σ.cloneOnWrite = true

end Heap

/-! ## The parts -/

structure Links (h : Heap) (R : Nat → List Nat) (F : List Nat) : Prop where
  ring : ∀ {b}, (h.buffers b).isSome → IsRing h.nextOf h.prevOf b (R b)
  dead : ∀ {b}, h.buffers b = none → R b = []
  disj : ∀ {b b' p}, p ∈ R b → p ∈ R b' → b = b'
  page : ∀ {b p}, p ∈ R b → h.buffers p = none
  flight : F.Nodup
  apart : ∀ {p}, p ∈ F → h.buffers p = none ∧ ∀ b, p ∉ R b
  live : ∀ p, (h.pages p).isSome ↔ (h.buffers p).isSome ∨ (∃ b, p ∈ R b) ∨ p ∈ F
  fresh : ∀ {p}, (h.pages p).isSome → p < h.next

structure Views (h : Heap) : Prop where
  data : ∀ {p}, (h.pages p).isSome → h.buffers p = none → (h.dataOf p).isSome
  sentinel : ∀ {b}, (h.buffers b).isSome → h.dataOf b = none ∧ h.lenOf b = 0
  region : ∀ {p d s}, h.dataOf p = some d → h.shapeOf d = some s →
    (h.vecOf p).base.region = s.dataVec.base.region

structure Objs (h : Heap) (c : Nat → Nat) : Prop where
  live : ∀ d, (h.shapeOf d).isSome ↔ 0 < c d
  count : ∀ {d D}, h.datas d = some D → D.useCount = c d % 65536
  owned : ∀ {d s}, h.shapeOf d = some s → s.operations = .trivial →
    s.responsibility = .owned →
      ∃ n, s.dataVec.base = ⟨.heap n, 0⟩ ∧ h.blocks n = some s.dataVec.len
  referenced : ∀ {d s}, h.shapeOf d = some s → s.operations = .trivial →
    s.responsibility = .referenced → ∃ k, s.dataVec.base.region = .caller k
  owner : ∀ {n}, (h.blocks n).isSome → ∃ d s, h.shapeOf d = some s ∧
    s.operations = .trivial ∧ s.dataVec.base.region = .heap n
  excl : ∀ {d d' s s'}, h.shapeOf d = some s → h.shapeOf d' = some s' →
    s.dataVec.base.region = s'.dataVec.base.region →
      (∃ k, s.dataVec.base.region = .caller k) ∨ d = d'
  freshData : ∀ {d}, (h.shapeOf d).isSome → d < h.next
  freshBlock : ∀ {n}, (h.blocks n).isSome → n < h.next

structure Allocs (h : Heap) : Prop where
  mapped : ∀ {d s a off obsolete}, h.shapeOf d = some s →
    s.operations = .mmap a off obsolete →
      ∃ m M A, s.dataVec.base = ⟨.mapped m, 0⟩ ∧ h.mappings m = some M ∧
        M.len = s.dataVec.len ∧ h.mmapAllocators a = some A ∧
        (obsolete = false → d ∈ A.dataTree)
  tree : ∀ {a A}, h.mmapAllocators a = some A → A.dataTree.Nodup ∧
    ∀ d ∈ A.dataTree, ∃ s off, h.shapeOf d = some s ∧ s.operations = .mmap a off false
  count : ∀ {a A}, h.mmapAllocators a = some A → A.useCount = h.allocRefs a % 65536
  live : ∀ a, (h.mmapAllocators a).isSome ↔ 0 < h.allocRefs a
  freshMapping : ∀ {m}, (h.mappings m).isSome → m < h.next

def Writable (h : Heap) (R : Nat → List Nat) : Prop :=
  ∀ b, h.WritesInPlace b → ∀ p ∈ R b, h.InData p

/-- The invariant inside an operation. -/
structure Core (h : Heap) (R : Nat → List Nat) (F X : List Nat) : Prop where
  links : Links h R F
  views : Views h
  objs : Objs h (h.count X)
  allocs : Allocs h
  writable : Writable h R

/-- The sizes the buffers keep are those of their pages. -/
def Totals (h : Heap) (R : Nat → List Nat) : Prop :=
  ∀ b B, h.buffers b = some B → B.dataSize = ((R b).map h.lenOf).sum

/-- The invariant between operations. -/
structure Inv (h : Heap) (R : Nat → List Nat) : Prop where
  core : Core h R [] []
  totals : Totals h R

/-- No page of the buffer is empty. -/
def Heap.Full (h : Heap) (l : List Nat) : Prop := ∀ p ∈ l, 0 < h.lenOf p

/-! ## What an operation leaves alone -/

/-- What no operation on a trivial buffer changes: the caller's memory, the
files, and of the pages, data and blocks that are there, and of the mmap
class, it can only take away. -/
structure World (h h' : Heap) : Prop where
  caller : ∀ k, h'.mem (.caller k) = h.mem (.caller k)
  callerLen : h'.callerLen = h.callerLen
  files : h'.files = h.files
  next : h.next ≤ h'.next
  page : ∀ {p}, (h'.pages p).isSome → p < h.next → (h.pages p).isSome
  data : ∀ {d s}, h'.shapeOf d = some s → d < h.next → h.shapeOf d = some s
  block : ∀ {n k}, h'.blocks n = some k → n < h.next → h.blocks n = some k
  mapped : ∀ {d s}, h'.shapeOf d = some s → s.operations ≠ .trivial → h.shapeOf d = some s
  mapping : ∀ {m M}, h'.mappings m = some M → h.mappings m = some M
  allocator : ∀ {a A'}, h'.mmapAllocators a = some A' →
    ∃ A, h.mmapAllocators a = some A ∧ A'.fileFd = A.fileFd ∧
      A'.fileHeadOffset = A.fileHeadOffset

theorem World.refl (h : Heap) : World h h where
  caller := fun _ => rfl
  callerLen := rfl
  files := rfl
  next := Nat.le_refl _
  page := fun hp _ => hp
  data := fun hs _ => hs
  block := fun hn _ => hn
  mapped := fun hs _ => hs
  mapping := fun hM => hM
  allocator := fun hA => ⟨_, hA, rfl, rfl⟩

theorem World.trans {h h' h'' : Heap} (w : World h h') (w' : World h' h'') : World h h'' where
  caller := fun k => (w'.caller k).trans (w.caller k)
  callerLen := w'.callerLen.trans w.callerLen
  files := w'.files.trans w.files
  next := Nat.le_trans w.next w'.next
  page := fun hp hlt => w.page (w'.page hp (Nat.lt_of_lt_of_le hlt w.next)) hlt
  data := fun hs hlt => w.data (w'.data hs (Nat.lt_of_lt_of_le hlt w.next)) hlt
  block := fun hn hlt => w.block (w'.block hn (Nat.lt_of_lt_of_le hlt w.next)) hlt
  mapped := fun hs ho => w.mapped (w'.mapped hs ho) ho
  mapping := fun hM => w.mapping (w'.mapping hM)
  allocator := fun hA => by
    obtain ⟨A', hA', hf', ho'⟩ := w'.allocator hA
    obtain ⟨A, hA, hf, ho⟩ := w.allocator hA'
    exact ⟨A, hA, hf'.trans hf, ho'.trans ho⟩

/-- The page stands for the same bytes of the same data. -/
structure Same (h h' : Heap) (p : Nat) : Prop where
  vec : h'.vecOf p = h.vecOf p
  data : h'.dataOf p = h.dataOf p
  bytes : h'.pageBytes p = h.pageBytes p

theorem Same.refl (h : Heap) (p : Nat) : Same h h p := ⟨rfl, rfl, rfl⟩

theorem Same.trans {h h' h'' : Heap} {p : Nat} (s : Same h h' p) (s' : Same h' h'' p) :
    Same h h'' p :=
  ⟨s'.vec.trans s.vec, s'.data.trans s.data, s'.bytes.trans s.bytes⟩

theorem Same.len {h h' : Heap} {p : Nat} (s : Same h h' p) : h'.lenOf p = h.lenOf p := by
  simp only [Heap.lenOf, s.vec]

theorem flat_of_same {h h' : Heap} {l : List Nat} (hl : ∀ p ∈ l, Same h h' p) :
    h'.flat l = h.flat l :=
  Heap.flat_congr (fun p hp => (hl p hp).bytes)

end Pb
