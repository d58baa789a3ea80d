import PageBuf.Invariant.Mapping
import PageBuf.Invariant.Insert

/-!
# MapPage — from a file offset to a page in the ring

`pb_mmap_allocator_page_map_forward` and its sibling look a block up in the
data tree, map it or a longer piece of it, and make a page on the mapping,
which the iterators then link. The operating system grants what it is asked;
memory may be refused.
-/

namespace Pb

open StateRun Function Ring RefCount

variable {env : Env} {h h' : Heap} {R : Nat → List Nat} {F X l₁ l₂ : List Nat}
  {a b d e m x it : Nat} {A : MmapAllocator} {B : Buffer} {M : Mapping} {fd : Fd}
  {old : Option Nat}

/-! ## The operating system -/

/-- Every call of the operating system succeeds. -/
def Env.SystemGrants (env : Env) : Prop := ∀ k, env.osGrants k = true

theorem osRequest_granted (hos : env.SystemGrants) :
    osRequest env h = .ok (some h.next, h.granted) := if_pos (hos _)

theorem mmapAllocatorGetFileSize_run (hos : env.SystemGrants) (hA : h.mmapAllocators a = some A)
    (hfd : A.fileFd = some fd) :
    mmapAllocatorGetFileSize env a h = .ok ((h.files fd.file).length, h.granted) := by
  unfold mmapAllocatorGetFileSize
  refine (bind_run (getMmapAllocator_run hA)).trans ?_
  rw [hfd]
  exact (bind_run (osRequest_granted hos)).trans rfl

theorem mmapAllocatorGetDataSize_run (hos : env.SystemGrants) (hA : h.mmapAllocators a = some A)
    (hfd : A.fileFd = some fd) (hle : A.fileHeadOffset ≤ (h.files fd.file).length) :
    mmapAllocatorGetDataSize env a h
      = .ok ((h.files fd.file).length - A.fileHeadOffset, h.granted) := by
  unfold mmapAllocatorGetDataSize
  refine (bind_run (getMmapAllocator_run hA)).trans ?_
  simp only [hfd]
  refine (bind_run (mmapAllocatorGetFileSize_run hos hA hfd)).trans ?_
  rw [if_neg (Nat.not_lt.mpr hle)]
  rfl

/-! ## The data tree -/

/-- `PB_HASH_FIND_UINT64`: data with the key, if there is any. -/
theorem dataTreeFind_run (key : Nat) (tree : List Nat)
    (htree : ∀ d ∈ tree, ∃ s off, h.shapeOf d = some s ∧ s.operations = .mmap a off false) :
    ∃ r, dataTreeFind key tree h = .ok (r, h) ∧
      match r with
      | some d => d ∈ tree ∧ ∃ s, h.shapeOf d = some s ∧ s.operations = .mmap a key false
      | none => ∀ d ∈ tree, ∀ s, h.shapeOf d = some s → s.operations ≠ .mmap a key false := by
  induction tree with
  | nil => exact ⟨none, rfl, by simp⟩
  | cons d tree ih =>
      obtain ⟨s, off, hs, hop⟩ := htree d List.mem_cons_self
      obtain ⟨D, hD⟩ := Heap.exists_data (h := h) (d := d) (by rw [hs]; rfl)
      have hDop : D.operations = .mmap a off false := by
        rw [Heap.shapeOf_eq hD] at hs
        cases hs
        exact hop
      have hfields : mmapFields D h = .ok ((off, false), h) := by
        simp only [mmapFields, hDop]
        rfl
      unfold dataTreeFind
      by_cases hkey : off = key
      · refine ⟨some d, ?_, List.mem_cons_self, s, hs, by rw [hop, hkey]⟩
        refine (bind_run (getData_run hD)).trans ((bind_run hfields).trans ?_)
        simp only [hkey, if_true]
        rfl
      · obtain ⟨r, hrun, hpost⟩ := ih fun e he => htree e (List.mem_cons_of_mem d he)
        refine ⟨r, ?_, ?_⟩
        · refine (bind_run (getData_run hD)).trans ((bind_run hfields).trans ?_)
          simp only [hkey, if_false]
          exact hrun
        · cases r with
          | some e => exact ⟨List.mem_cons_of_mem d hpost.1, hpost.2⟩
          | none =>
              intro e he t ht hop'
              rcases List.mem_cons.mp he with rfl | he
              · rw [hs] at ht
                cases ht
                rw [hop] at hop'
                cases hop'
                exact hkey rfl
              · exact hpost e he t ht hop'

/-! ## Creating a mapping -/

/-- The heap with a new mapping and its `pb_mmap_data`. -/
def Heap.withMapped (h : Heap) (a : Nat) (M : Mapping) : Heap :=
  ((h.granted.setMapping h.next (some M)).granted).setData (h.next + 1)
    (some ⟨⟨⟨.mapped h.next, 0⟩, M.len⟩, .owned, 1, .mmap a M.offset false⟩)

/-- The same, counted by the allocator, but in no tree. -/
def Heap.withMapping (h : Heap) (a : Nat) (A : MmapAllocator) (M : Mapping) : Heap :=
  (h.withMapped a M).setMmapAllocator a (some { A with useCount := u16Inc A.useCount })

theorem mmapAllocatorGet_run (hA : h.mmapAllocators a = some A) :
    mmapAllocatorGet a h
      = .ok ((), h.setMmapAllocator a (some { A with useCount := u16Inc A.useCount })) :=
  modifyMmapAllocator_run hA _

/-- Why a mapping may not be made. -/
def MapFails (env : Env) (fd : Fd) (len : Nat) : Prop :=
  len = 0 ∨ fd.writable = false ∨ Refused env

theorem mmap64_run (hos : env.SystemGrants) {len : Nat} (hlen : len ≠ 0)
    (hw : fd.writable = true) (off : Nat) :
    mmap64 env fd off len h
      = .ok (some h.next, h.granted.setMapping h.next (some ⟨fd.file, off, len⟩)) := by
  unfold mmap64
  rw [if_neg (by simp [hlen, hw])]
  exact (bind_run (osRequest_granted hos)).trans rfl

theorem mmap64_fails {len : Nat} (hbad : len = 0 ∨ fd.writable = false) (off : Nat) :
    mmap64 env fd off len h = .ok (none, h) := by
  unfold mmap64
  rw [if_pos (by simpa using hbad)]
  rfl

theorem mmapAllocatorDataCreate_cases (hos : env.SystemGrants) (ha : Allocs h)
    (hA : h.mmapAllocators a = some A) (hfd : A.fileFd = some fd) (off len : Nat) :
    (∃ h₁, mmapAllocatorDataCreate env a off len h = .ok (none, h₁) ∧ MapFails env fd len ∧
      Idle h h₁ ∧ h₁.mem = h.mem ∧ h₁.buffers = h.buffers) ∨
    mmapAllocatorDataCreate env a off len h
      = .ok (some (h.next + 1), h.withMapping a A ⟨fd.file, off, len⟩) := by
  unfold mmapAllocatorDataCreate
  by_cases hbad : len = 0 ∨ fd.writable = false
  · left
    refine ⟨h, ?_, hbad.elim .inl (fun hw => .inr (.inl hw)), Idle.refl h, rfl, rfl⟩
    refine (bind_run (getMmapAllocator_run hA)).trans ?_
    simp only [hfd]
    exact (bind_run (mmap64_fails hbad off)).trans rfl
  · obtain ⟨hlen, hw⟩ := not_or.mp hbad
    have hmap := (@mmap64_run env h fd) hos hlen (Bool.of_not_eq_false hw) off
    rcases request_cases env (h.granted.setMapping h.next (some ⟨fd.file, off, len⟩)) with
      ⟨-, hrun⟩ | ⟨hg, hrun⟩
    · right
      refine (bind_run (getMmapAllocator_run hA)).trans ?_
      simp only [hfd]
      refine (bind_run hmap).trans ((bind_run hrun).trans ?_)
      have hget : mmapAllocatorGet a (h.withMapped a ⟨fd.file, off, len⟩)
          = .ok ((), h.withMapping a A ⟨fd.file, off, len⟩) := mmapAllocatorGet_run hA
      exact (bind_run (modify_run _)).trans ((bind_run hget).trans rfl)
    · left
      have hfresh : h.mappings h.next = none := by
        by_contra hn
        have := ha.freshMapping (Option.isSome_iff_ne_none.mpr hn)
        omega
      refine ⟨((h.granted.setMapping h.next (some ⟨fd.file, off, len⟩)).refused).setMapping
        h.next none, ?_, .inr (.inr ⟨_, hg⟩), ?_, rfl, rfl⟩
      · refine (bind_run (getMmapAllocator_run hA)).trans ?_
        simp only [hfd]
        refine (bind_run hmap).trans ((bind_run hrun).trans ?_)
        exact (bind_run (munmap_run _ _)).trans rfl
      · refine { Idle.refl h with next := Nat.le_succ _, mappings := ?_ }
        simp [Heap.refused, Heap.setMapping, Heap.granted, ← hfresh]

end Pb
