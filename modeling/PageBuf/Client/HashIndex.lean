import PageBuf.Client.HashRuns
import PageBuf.Client.MappingIndex

/-!
# HashIndex — the data tree of an mmap allocator as a hash table

The allocator keeps its `pb_mmap_data` in a hash table under their file offsets.
A list stands for the table where the allocator is modelled. The two answer
alike: what a lookup finds does not depend on the order in which the mappings
came and went, because no two of them have one offset.
-/

namespace Pb

open StateRun Function

variable {env : Env} {h : Heap} {openAction : MmapOpenAction} {b off : Nat}
  {henv : HashEnv Nat} {g : HashHeap Nat} {items : List (Nat × Nat)}

/-- The items are the data of the tree of a buffer, each under its offset. -/
def Heap.Hashed (h : Heap) (b : Nat) (items : List (Nat × Nat)) : Prop :=
  ∀ d off, (d, off) ∈ items ↔ d ∈ h.dataTreeOf b ∧ h.IsMapping b d off false

/-- A lookup in the tree of a window. -/
theorem Maps.dataTreeFind_iff {R : Nat → List Nat} {a head : Nat} {fd : Fd} {ks : List Block}
    (m : Maps h R b a fd head ks) (off : Nat) :
    ∃ out, dataTreeFind off (h.dataTreeOf b) h = .ok (out, h) ∧
      ∀ d, out = some d ↔ d ∈ h.dataTreeOf b ∧ h.IsMapping b d off false := by
  obtain ⟨A, hA, -⟩ := m.teardown.allocator
  obtain ⟨out, hrun, hout⟩ := m.teardown.find hA off
  rw [← m.opened.dataTreeOf hA] at hrun
  refine ⟨out, hrun, fun d => ?_⟩
  cases out with
  | some e =>
      obtain ⟨c, hc, rfl, hcur, hoff⟩ := hout
      constructor
      · intro he
        cases he
        exact ⟨m.mem_dataTreeOf.mpr ⟨c, hc, rfl, hcur⟩,
          m.isMapping_iff.mpr ⟨c, hc, rfl, hoff, hcur⟩⟩
      · rintro ⟨hd, hmap⟩
        rw [m.indexed.once d hd c.data (m.mem_dataTreeOf.mpr ⟨c, hc, rfl, hcur⟩) off hmap
          (m.isMapping_iff.mpr ⟨c, hc, rfl, hoff, hcur⟩)]
  | none =>
      constructor
      · intro he
        cases he
      · rintro ⟨-, hmap⟩
        obtain ⟨c, hc, -, hoff, hcur⟩ := m.isMapping_iff.mp hmap
        exact absurd hoff (hout c hc hcur)

/-- The items that stand for an index have different offsets. -/
theorem Heap.Hashed.nodup_keys (hd : h.Hashed b items) (i : h.Indexed b)
    (hnd : (items.map Prod.fst).Nodup) : (items.map Prod.snd).Nodup := by
  refine (List.Nodup.of_map _ hnd).map_on ?_
  rintro ⟨d, off⟩ hp ⟨d', off'⟩ hp' rfl
  obtain ⟨hmem, hmap⟩ := (hd d off).mp hp
  obtain ⟨hmem', hmap'⟩ := (hd d' off).mp hp'
  rw [i.once d hmem d' hmem' off hmap hmap']

/-- The table for a file of two bytes, mapped. -/
def HashHeap.oneMapping : HashHeap Nat := eightObjects.afterHash .offsets (.add 6 0)

theorem run_oneMapping : HashRun .offsets .oneMapping [(6, 0)] := by
  have hnew : HashRun .offsets .eightObjects [] := .new _ _
  exact hnew.after (.add 6 0) ⟨by decide, ⟨_, rfl⟩, by decide⟩ (by decide +kernel)

theorem hashed_twoBytes : Heap.twoBytes.Hashed 3 [(6, 0)] := by
  have htree : Heap.twoBytes.dataTreeOf 3 = [6] := by decide +kernel
  have hkind : (Heap.twoBytes.kindOf 3).map Prod.snd = some (.mmap 0) := by decide +kernel
  have hfields : Heap.twoBytes.mmapFieldsOf 6 = some (0, 0, false) := by decide +kernel
  intro d off
  rw [htree, Heap.IsMapping, hkind]
  constructor
  · intro hmem
    cases List.mem_singleton.mp hmem
    exact ⟨List.mem_singleton.mpr rfl, 0, rfl, hfields⟩
  · rintro ⟨hd, a, -, hmap⟩
    rw [List.mem_singleton.mp hd, hfields] at hmap
    cases hmap
    exact List.mem_singleton.mpr (by rw [List.mem_singleton.mp hd])

end Pb
