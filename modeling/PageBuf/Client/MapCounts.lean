import PageBuf.Client.MappingIndex

/-!
# MapCounts — how many mappings an allocator can count

`use_count` of the mmap allocator has 16 bits, and every mapped block takes one
reference. From the 65535th block on it no longer is the number of references;
from the 65536th on giving the pages up tears the allocator down under them.
-/

namespace Pb

open StateRun Function Ring

variable {env : Env} {h h' : Heap} {openAction : MmapOpenAction} {a b d head len n size x : Nat}
  {fd : Fd} {k : Block} {ks : List Block} {op : MmapOp}

namespace Heap

/-- How many `pb_mmap_data` there are. -/
def mappingCount (h : Heap) : Nat :=
  ((List.range h.next).filter fun d => (h.mmapFieldsOf d).isSome).length

/-- `use_count` counts the buffer and the `pb_mmap_data` there are. -/
def CountsMappings (h : Heap) (b : Nat) : Prop :=
  (h.mmapAllocatorOf b).map MmapAllocator.useCount = some (1 + h.mappingCount)

end Heap

/-- The calls that give all the pages up. -/
inductive MmapOp.GivesUp : MmapOp → Prop where
  | seek (len : Nat) : GivesUp (.seek len)
  | rewind (len : Nat) : GivesUp (.rewind len)
  | clear : GivesUp .clear

/-- Any call but a trim and the buffer's end. -/
def MmapOp.Counts : MmapOp → Prop
  | .trim _ | .destroy => False
  | _ => True

namespace Maps

variable {R : Nat → List Nat} (m : Maps h R b a fd head ks)

include m

theorem mappingCount_eq : h.mappingCount = ks.length := by
  have hmem : ∀ d, d ∈ (List.range h.next).filter (fun d => (h.mmapFieldsOf d).isSome) ↔
      d ∈ ks.map Block.data := by
    intro d
    rw [List.mem_filter, List.mem_range]
    constructor
    · rintro ⟨-, hd⟩
      obtain ⟨⟨a', off, o⟩, hfields⟩ := Option.isSome_iff_exists.mp hd
      have hlive : (h.datas d).isSome := by
        by_contra hno
        rw [Option.not_isSome_iff_eq_none] at hno
        simp [Heap.mmapFieldsOf, hno] at hfields
      exact (m.teardown.datas d hlive).resolve_right (by simp)
    · intro hd
      obtain ⟨c, hc, rfl⟩ := List.mem_map.mp hd
      refine ⟨m.inv.core.objs.freshData ?_, ?_⟩
      · rw [(m.shows c hc).shape]
        rfl
      · rw [m.mmapFieldsOf hc]
        rfl
  have hnodup : ((List.range h.next).filter fun d => (h.mmapFieldsOf d).isSome).Nodup :=
    List.nodup_range.filter _
  rw [Heap.mappingCount, ((List.perm_ext_iff_of_nodup hnodup m.once).mpr hmem).length_eq,
    List.length_map]

theorem useCount_eq :
    (h.mmapAllocatorOf b).map MmapAllocator.useCount = some ((ks.length + 1) % 65536) := by
  obtain ⟨A, hA, -, -, huse, -⟩ := m.teardown.allocator
  rw [m.opened.mmapAllocatorOf, hA, Option.map_some, huse]

theorem countsMappings_iff : h.CountsMappings b ↔ (h.pagesOf b).length ≤ 65534 := by
  rw [Heap.CountsMappings, m.useCount_eq, m.mappingCount_eq, m.pagesOf, List.length_map,
    Option.some.injEq]
  omega

end Maps

/-- Giving up all the pages returns where the counter has kept up. -/
theorem Window.givesUp_iff (w : Window h b a fd head ks) (hs : env.Succeeds) (hop : op.GivesUp) :
    Yields (execMmap env b op) h (fun _ h' => (h'.mmapAllocatorOf b).isSome ∧ h'.pagesOf b = []) ↔
      (h.pagesOf b).length ≤ 65535 := by
  obtain ⟨R, m⟩ := w.maps
  have hdone : ∀ {h' : Heap} {bs : List UInt8} {head' : Nat}, Stands h h' b a fd bs head' 1 [] →
      (h'.mmapAllocatorOf b).isSome ∧ h'.pagesOf b = [] := by
    intro h' bs head' hst
    obtain ⟨R', m'⟩ := hst.window.maps
    obtain ⟨A', hA', -⟩ := m'.opened.allocator
    refine ⟨?_, m'.pagesOf⟩
    rw [m'.opened.mmapAllocatorOf, hA']
    rfl
  rw [m.pagesOf, List.length_map]
  have hsettle : Settles (ks.length ≤ 65535) (execMmap env b op) h (fun _ h' =>
      (h'.mmapAllocatorOf b).isSome ∧ h'.pagesOf b = []) := by
    cases hop with
    | seek len =>
        exact Settles.bind (w.seek hs len) fun n h' hpost => yields_pure.mpr (hdone hpost.2)
    | rewind len =>
        exact Settles.bind (w.rewind len) fun n h' hpost => yields_pure.mpr (hdone hpost.2)
    | clear => exact Settles.bind (w.clear hs) fun _ h' hst => yields_pure.mpr (hdone hst)
  exact hsettle.yields_iff fun _ _ hp => hp

theorem MmapReachable.counted
    (hr : MmapReachable env openAction (fun _ op => op.Counts) b h) (hs : env.Succeeds) :
    ∃ a file head ks, Window h b a ⟨file, openAction ≠ .read⟩ head ks := by
  refine hr.window hs fun g op hop => ⟨fun len he => ?_, fun he => ?_⟩
  · rw [he] at hop
    exact hop
  · rw [he] at hop
    exact hop

/-- **The allocator counts its mappings** in the states with 65534 blocks at most, and the pages can
be given up, with the allocator still there, in those with 65535 at most. -/
theorem mappings_counted (hs : env.Succeeds)
    (hr : MmapReachable env openAction (fun _ op => op.Counts) b h) :
    (h.CountsMappings b ↔ (h.pagesOf b).length ≤ 65534) ∧
    ∀ op : MmapOp, op.GivesUp → (Yields (execMmap env b op) h (fun _ h' =>
      (h'.mmapAllocatorOf b).isSome ∧ h'.pagesOf b = []) ↔ (h.pagesOf b).length ≤ 65535) := by
  obtain ⟨a, file, head, ks, w⟩ := hr.counted hs
  obtain ⟨R, m⟩ := w.maps
  exact ⟨m.countsMappings_iff, fun op hop => w.givesUp_iff hs hop⟩

/-! ## A file that is too long -/

/-- An mmap buffer over a file of `size` bytes. -/
def Heap.zeroFile (size : Nat) : Heap :=
  (Heap.initial (fun _ _ => 0) (fun _ => 0) (fun _ => List.replicate size 0)).withMmap 0 .append
    .retain

/-- Stepping from page to page maps the file up to any place. -/
theorem zeroFile_mapped (M : Heap → MmapOp → Prop) (hget : ∀ h, M h .getIterator)
    (hnext : ∀ h it, M h (.nextIterator it)) (hpos : 0 < size) (hx : x ≤ size) :
    ∃ h a ks k, MmapReachable .generous .append M 3 h ∧ Window h 3 a ⟨0, true⟩ 0 ks ∧
      (h.files 0).length = size ∧ startOf ks 0 = 0 ∧ k ∈ ks ∧ x ≤ k.stop := by
  induction x with
  | zero =>
      have hr : MmapReachable .generous .append M 3 (Heap.zeroFile size) :=
        ⟨_, _, _, 0, .retain, _, mmapBufferCreate_run succeeds_generous, .refl⟩
      obtain ⟨a, w⟩ := (@window_created .generous (Heap.zeroFile size) 3) succeeds_generous
        (mmapBufferCreate_run succeeds_generous)
      have hsize : ((Heap.zeroFile size).files 0).length = size := List.length_replicate
      obtain ⟨it, h', hrun, ht, ks, w', hstart, -, hplace⟩ := w.getIterator succeeds_generous
      rcases beginsAt_iff.mp hplace with ⟨k, hk, -, -⟩ | ⟨-, hend⟩
      · refine ⟨h', a, ks, k, (@MmapReachable.call _ _ _ _ .getIterator _ _ _ hr) rfl (hget _) (bind_run hrun), w', ?_,
          hstart, hk, Nat.zero_le _⟩
        rw [ht.files]
        exact hsize
      · -- a file with bytes in it does not begin at its end
        have hzero : 0 = ((Heap.zeroFile size).files 0).length := hend
        omega
  | succ x ih =>
      obtain ⟨h, a, ks, k, hr, w, hsize, hstart, hk, hle⟩ := ih (by omega)
      by_cases hfar : x + 1 ≤ k.stop
      · exact ⟨h, a, ks, k, hr, w, hsize, hstart, hk, hfar⟩
      · obtain ⟨R, m⟩ := w.maps
        obtain ⟨it, h', hrun, ht, ks', w', hstart', -, hplace⟩ := w.nextIterator succeeds_generous hk
        have hvalid : (MmapOp.nextIterator k.page).Valid h 3 :=
          ⟨m.opened.isSome, m.isPlaceOf.mpr (.inr ⟨k, hk, rfl⟩)⟩
        have hr' := hr.call hvalid (hnext _ _) (bind_run hrun)
        rcases beginsAt_iff.mp hplace with ⟨k', hk', -, hbegin⟩ | ⟨-, hend⟩
        · have hlt := w'.start_lt_stop hk'
          refine ⟨h', a, ks', k', hr', w', ?_, hstart'.trans hstart, hk', by omega⟩
          rw [ht.files]
          exact hsize
        · have hfull : k.stop = (h.files 0).length := hend
          omega

/-- Blocks of 4096 bytes at most. -/
theorem Window.size_le (w : Window h b a fd head ks) (hk : k ∈ ks) (hstart : startOf ks head = 0) :
    k.stop ≤ 4096 * ks.length := by
  obtain ⟨R, m⟩ := w.maps
  have hle := m.stretch.stop_le hk head
  have hlen := m.stretch.length_le head
  rw [hstart, Nat.zero_add] at hlen
  exact Nat.le_trans hle hlen

theorem mappings_counted_lastBlock : Heap.lastBlock.CountsMappings 3 ∧
    Yields (execMmap .generous 3 .clear) .lastBlock (fun _ h' =>
      (h'.mmapAllocatorOf 3).isSome ∧ h'.pagesOf 3 = []) := by
  obtain ⟨hcount, hgive⟩ := mappings_counted succeeds_generous
    (reachable_lastBlock (M := fun _ op => op.Counts) trivial)
  constructor
  · rw [hcount, pagesOf_lastBlock]
    decide
  · rw [hgive .clear .clear, pagesOf_lastBlock]
    decide

/-- Reading through a file of 65535 blocks wraps the counter. -/
theorem mappings_miscounted : ¬∀ (env : Env) (openAction : MmapOpenAction) (b : Nat) (h : Heap),
    env.Succeeds → MmapReachable env openAction (fun _ op => op.Counts) b h →
    h.CountsMappings b := by
  intro hall
  obtain ⟨h, a, ks, k, hr, w, -, hstart, hk, hstop⟩ := (@zeroFile_mapped (4096 * 65535)
    (4096 * 65535)) (fun _ op => op.Counts) (fun _ => trivial) (fun _ _ => trivial)
    (by omega) (Nat.le_refl _)
  have hcount := hall .generous .append 3 h succeeds_generous hr
  obtain ⟨R, m⟩ := w.maps
  rw [m.countsMappings_iff, m.pagesOf, List.length_map] at hcount
  have hsize := w.size_le hk hstart
  omega

end Pb
