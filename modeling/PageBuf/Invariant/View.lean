import PageBuf.Model.System

/-!
# View — how the primitives run and what they change

One run lemma for each primitive of the model, and for each update of the
heap what it does to the observations.
-/

namespace Pb

open StateRun Function

/-! ## Runs of the primitives -/

section Runs

variable {h : Heap} {p d b a : Nat} {P : Page} {D : Data} {B : Buffer} {A : MmapAllocator}

theorem getPage_run (hP : h.pages p = some P) : getPage p h = .ok (P, h) := by
  simp only [getPage, hP]

theorem getData_run (hD : h.datas d = some D) : getData d h = .ok (D, h) := by
  simp only [getData, hD]

theorem getBuffer_run (hB : h.buffers b = some B) : getBuffer b h = .ok (B, h) := by
  simp only [getBuffer, hB]

theorem getMmapAllocator_run (hA : h.mmapAllocators a = some A) :
    getMmapAllocator a h = .ok (A, h) := by
  simp only [getMmapAllocator, hA]

theorem modify_run (f : Heap → Heap) : (modify f : PbM Unit) h = .ok ((), f h) := rfl

theorem get_run : (get : PbM Heap) h = .ok (h, h) := rfl

theorem deref_run {o : Option Nat} (ho : o = some p) : deref o h = .ok (p, h) := by
  subst ho
  rfl

theorem modifyPage_run (hP : h.pages p = some P) (f : Page → Page) :
    modifyPage p f h = .ok ((), h.setPage p (some (f P))) :=
  (bind_run (getPage_run hP)).trans rfl

theorem modifyData_run (hD : h.datas d = some D) (f : Data → Data) :
    modifyData d f h = .ok ((), h.setData d (some (f D))) :=
  (bind_run (getData_run hD)).trans rfl

theorem modifyBuffer_run (hB : h.buffers b = some B) (f : Buffer → Buffer) :
    modifyBuffer b f h = .ok ((), h.setBuffer b (some (f B))) :=
  (bind_run (getBuffer_run hB)).trans rfl

theorem modifyMmapAllocator_run (hA : h.mmapAllocators a = some A)
    (f : MmapAllocator → MmapAllocator) :
    modifyMmapAllocator a f h = .ok ((), h.setMmapAllocator a (some (f A))) :=
  (bind_run (getMmapAllocator_run hA)).trans rfl

theorem pageGetLen_run (hP : (h.pages p).isSome) : pageGetLen p h = .ok (h.lenOf p, h) := by
  obtain ⟨P, hP⟩ := Option.isSome_iff_exists.mp hP
  refine (bind_run (getPage_run hP)).trans ?_
  simp [Heap.lenOf, Heap.vecOf, hP]
  rfl

theorem pageGetBase_run (hP : (h.pages p).isSome) :
    pageGetBase p h = .ok ((h.vecOf p).base, h) := by
  obtain ⟨P, hP⟩ := Option.isSome_iff_exists.mp hP
  refine (bind_run (getPage_run hP)).trans ?_
  simp [Heap.vecOf, hP]
  rfl

theorem memRead_run (q : Ptr) (n : Nat) :
    memRead q n h
      = .ok (h.bytes q n, { h with overread := h.overread || !h.inBounds q n }) := rfl

theorem memWrite_run {q : Ptr} {bs : List UInt8} (hq : h.inBounds q bs.length) :
    memWrite q bs h = .ok ((), h.store q bs) := if_pos hq

theorem callerSlice_run {buf : List UInt8} {i n : Nat} (hn : i + n ≤ buf.length) :
    callerSlice buf i n h = .ok ((buf.drop i).take n, h) := by
  simp only [callerSlice, if_pos hn]
  rfl

theorem request_granted {env : Env} (hg : env.grants h.calls = true) :
    request env h = .ok (some h.next, h.granted) := if_pos hg

theorem request_refused {env : Env} (hg : env.grants h.calls = false) :
    request env h = .ok (none, h.refused) := if_neg (by simp [hg])

/-- A request is granted or refused; nothing else happens. -/
theorem request_cases (env : Env) (h : Heap) :
    (env.grants h.calls = true ∧ request env h = .ok (some h.next, h.granted)) ∨
      (env.grants h.calls = false ∧ request env h = .ok (none, h.refused)) := by
  cases hg : env.grants h.calls with
  | true => exact .inl ⟨rfl, request_granted hg⟩
  | false => exact .inr ⟨rfl, request_refused hg⟩

end Runs

/-! ## Observations after an update -/

namespace Heap

variable {h h' : Heap} {p q b : Nat} {o : Option Page}

theorem nextOf_eq {P : Page} (hP : h.pages p = some P) : h.nextOf p = P.next := by
  simp [nextOf, hP]

theorem prevOf_eq {P : Page} (hP : h.pages p = some P) : h.prevOf p = P.prev := by
  simp [prevOf, hP]

theorem dataOf_eq {P : Page} (hP : h.pages p = some P) : h.dataOf p = P.data := by
  simp [dataOf, hP]

theorem vecOf_eq {P : Page} (hP : h.pages p = some P) : h.vecOf p = P.dataVec := by
  simp [vecOf, hP]

theorem dataOf_of_none (hp : h.pages p = none) : h.dataOf p = none := by
  simp [dataOf, hp]

theorem nextOf_congr (hp : h'.pages = h.pages) : h'.nextOf = h.nextOf := by
  funext q
  simp [nextOf, hp]

theorem prevOf_congr (hp : h'.pages = h.pages) : h'.prevOf = h.prevOf := by
  funext q
  simp [prevOf, hp]

theorem dataOf_congr (hp : h'.pages = h.pages) : h'.dataOf = h.dataOf := by
  funext q
  simp [dataOf, hp]

theorem vecOf_congr (hp : h'.pages = h.pages) : h'.vecOf = h.vecOf := by
  funext q
  simp [vecOf, hp]

theorem lenOf_congr (hp : h'.pages = h.pages) : h'.lenOf = h.lenOf := by
  funext q
  simp [lenOf, vecOf_congr hp]

@[simp] theorem pages_setPage : (h.setPage p o).pages = update h.pages p o := rfl

@[simp] theorem nextOf_setPage :
    (h.setPage p o).nextOf = update h.nextOf p (o.bind Page.next) := by
  funext q
  rcases eq_or_ne q p with rfl | hq <;> simp [nextOf, *]

@[simp] theorem prevOf_setPage :
    (h.setPage p o).prevOf = update h.prevOf p (o.bind Page.prev) := by
  funext q
  rcases eq_or_ne q p with rfl | hq <;> simp [prevOf, *]

@[simp] theorem dataOf_setPage :
    (h.setPage p o).dataOf = update h.dataOf p (o.bind Page.data) := by
  funext q
  rcases eq_or_ne q p with rfl | hq <;> simp [dataOf, *]

@[simp] theorem vecOf_setPage :
    (h.setPage p o).vecOf = update h.vecOf p (o.getD {}).dataVec := by
  funext q
  rcases eq_or_ne q p with rfl | hq <;> simp [vecOf, *]

/-! ## Bytes -/

@[simp] theorem length_bytes (q : Ptr) (n : Nat) : (h.bytes q n).length = n := by
  simp [bytes]

@[simp] theorem length_pageBytes : (h.pageBytes p).length = h.lenOf p := by
  simp [pageBytes]

@[simp] theorem bytes_zero (q : Ptr) : h.bytes q 0 = [] := rfl

theorem bytes_add (q : Ptr) (m n : Nat) :
    h.bytes q (m + n) = h.bytes q m ++ h.bytes (q.add m) n := by
  simp [bytes, List.range_add, Nat.add_assoc]

theorem bytes_take (q : Ptr) {m n : Nat} (hmn : m ≤ n) :
    (h.bytes q n).take m = h.bytes q m := by
  obtain ⟨k, rfl⟩ := Nat.exists_eq_add_of_le hmn
  rw [bytes_add, List.take_left' (by simp)]

theorem bytes_drop (q : Ptr) {m n : Nat} (hmn : m ≤ n) :
    (h.bytes q n).drop m = h.bytes (q.add m) (n - m) := by
  obtain ⟨k, rfl⟩ := Nat.exists_eq_add_of_le hmn
  rw [bytes_add, List.drop_left' (by simp), Nat.add_sub_cancel_left]

/-- A stretch of a page. -/
theorem bytes_add_offset {off n : Nat} (hn : off + n ≤ h.lenOf p) :
    h.bytes ((h.vecOf p).base.add off) n = ((h.pageBytes p).drop off).take n := by
  rw [pageBytes, bytes_drop _ (by omega), bytes_take _ (by omega)]

theorem bytes_congr {q : Ptr} {n : Nat}
    (hb : ∀ i, h'.byteAt q.region i = h.byteAt q.region i) :
    h'.bytes q n = h.bytes q n := by
  simp only [bytes, hb]

/-- `store` outside of mappings. -/
theorem store_eq {q : Ptr} {bs : List UInt8} (hq : ∀ m, q.region ≠ .mapped m) :
    h.store q bs = { h with mem := update h.mem q.region (fun i =>
      if q.offset ≤ i ∧ i < q.offset + bs.length then bs.getD (i - q.offset) 0
      else h.mem q.region i) } := by
  obtain ⟨s, off⟩ := q
  cases s with
  | mapped m => exact absurd rfl (hq m)
  | _ => rfl

theorem byteAt_of_unmapped {r : Region} (hr : ∀ m, r ≠ .mapped m) (i : Nat) :
    h.byteAt r i = h.mem r i := by
  cases r with
  | mapped m => exact absurd rfl (hr m)
  | _ => rfl

theorem byteAt_congr {r : Region} (hmem : h'.mem r = h.mem r)
    (hm : h'.mappings = h.mappings) (hf : h'.files = h.files) (i : Nat) :
    h'.byteAt r i = h.byteAt r i := by
  cases r <;> simp only [byteAt, hmem, hm, hf]

theorem byteAt_store_self {q : Ptr} {bs : List UInt8} (hq : ∀ m, q.region ≠ .mapped m)
    (i : Nat) :
    (h.store q bs).byteAt q.region i =
      if q.offset ≤ i ∧ i < q.offset + bs.length then bs.getD (i - q.offset) 0
      else h.byteAt q.region i := by
  rw [byteAt_of_unmapped hq, byteAt_of_unmapped hq, store_eq hq]
  simp only [update_self]

theorem byteAt_store_of_ne {q : Ptr} {bs : List UInt8} (hq : ∀ m, q.region ≠ .mapped m)
    {r : Region} (hr : r ≠ q.region) (i : Nat) :
    (h.store q bs).byteAt r i = h.byteAt r i := by
  rw [store_eq hq]
  apply byteAt_congr
  · simp only [update_of_ne hr]
  · rfl
  · rfl

theorem bytes_store_self {q : Ptr} {bs : List UInt8} (hq : ∀ m, q.region ≠ .mapped m) :
    (h.store q bs).bytes q bs.length = bs := by
  refine List.ext_getElem (by simp) ?_
  intro i hi hi'
  simp only [length_bytes] at hi
  simp [bytes, byteAt_store_self hq, hi]

theorem bytes_store_of_ne {q s : Ptr} {bs : List UInt8} {n : Nat}
    (hq : ∀ m, q.region ≠ .mapped m) (hs : s.region ≠ q.region) :
    (h.store q bs).bytes s n = h.bytes s n :=
  bytes_congr (byteAt_store_of_ne hq hs)

/-! ## Contents -/

@[simp] theorem flat_nil : h.flat [] = [] := rfl

@[simp] theorem flat_cons (l : List Nat) : h.flat (p :: l) = h.pageBytes p ++ h.flat l := by
  simp [flat]

@[simp] theorem flat_append (l k : List Nat) : h.flat (l ++ k) = h.flat l ++ h.flat k := by
  simp [flat]

theorem length_flat (l : List Nat) : (h.flat l).length = (l.map h.lenOf).sum := by
  induction l with
  | nil => rfl
  | cons p l ih => simp [ih]

theorem flat_congr {l : List Nat} (hl : ∀ p ∈ l, h'.pageBytes p = h.pageBytes p) :
    h'.flat l = h.flat l :=
  List.flatMap_congr hl

end Heap

end Pb
