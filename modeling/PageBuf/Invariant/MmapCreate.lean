import PageBuf.Invariant.MapPage
import PageBuf.Invariant.Lifecycle

/-!
# MmapCreate — a new mmap buffer

`pb_mmap_buffer_create` makes an allocator that holds the descriptor of the
file, and a buffer that holds the allocator. Nothing is mapped yet.
-/

namespace Pb

open StateRun Function Ring RefCount

variable {env : Env} {h h' : Heap} {R : Nat → List Nat} {F X : List Nat} {a b file : Nat}
  {openAction : MmapOpenAction} {closeAction : MmapCloseAction} {fd : Fd} {head : Nat}

/-- Every request is granted, and a write takes all its bytes. -/
structure Env.Succeeds (env : Env) : Prop where
  memory : ∀ k, env.grants k = true
  system : env.SystemGrants
  writes : ∀ k n, env.accepts k n = n

theorem Env.Succeeds.not_refused (hs : env.Succeeds) : ¬Refused env := by
  rintro ⟨k, hk⟩
  rw [hs.memory] at hk
  cases hk

/-- The buffer `b` has the mmap allocator `a`, which has opened the file `fd`
and stands at `head`. -/
structure Opened (h : Heap) (b a : Nat) (fd : Fd) (head : Nat) : Prop where
  kind : h.kindOf b = some (mmapBufferStrategy, .mmap a)
  allocator : ∃ A, h.mmapAllocators a = some A ∧ A.fileFd = some fd ∧ A.fileHeadOffset = head
  head : head ≤ (h.files fd.file).length

/-- The allocator of a new mmap buffer. -/
def newMmapAllocator (file : Nat) (openAction : MmapOpenAction) (closeAction : MmapCloseAction) :
    MmapAllocator where
  useCount := 1
  fileFd := some ⟨file, openAction ≠ .read⟩
  fileHeadOffset := 0
  dataTree := []
  closeAction := closeAction

/-- The heap with an mmap buffer: its allocator is at the next address, its file
path and its file descriptor took one each, and it is at the one behind these. -/
def Heap.withMmap (h : Heap) (file : Nat) (openAction : MmapOpenAction)
    (closeAction : MmapCloseAction) : Heap :=
  { h with
    next := h.next + 4, calls := h.calls + 4
    pages := update h.pages (h.next + 3) (some { prev := some (h.next + 3), next := some (h.next + 3) })
    buffers := update h.buffers (h.next + 3)
      (some { strategy := mmapBufferStrategy, operations := .mmap h.next })
    mmapAllocators := update h.mmapAllocators h.next
      (some (newMmapAllocator file openAction closeAction))
    files := if openAction = .overwrite then update h.files file [] else h.files }

theorem request_succeeds (hs : env.Succeeds) (h : Heap) :
    request env h = .ok (some h.next, h.granted) := request_granted (hs.memory _)

/-- The heap with the allocator alone. -/
def Heap.withAllocator (h : Heap) (file : Nat) (openAction : MmapOpenAction)
    (closeAction : MmapCloseAction) : Heap :=
  { h with
    next := h.next + 3, calls := h.calls + 3
    mmapAllocators := update h.mmapAllocators h.next
      (some (newMmapAllocator file openAction closeAction))
    files := if openAction = .overwrite then update h.files file [] else h.files }

theorem mmapAllocatorCreate_run (hs : env.Succeeds) :
    mmapAllocatorCreate env file openAction closeAction h
      = .ok (some h.next, h.withAllocator file openAction closeAction) := by
  unfold mmapAllocatorCreate
  refine (bind_run (request_succeeds hs h)).trans ?_
  refine (bind_run (modify_run _)).trans ((bind_run (request_succeeds hs _)).trans ?_)
  refine (bind_run (osRequest_granted hs.system)).trans ?_
  -- the file is emptied if it is to be overwritten
  by_cases ho : openAction = .overwrite
  · subst ho
    refine (bind_run (modify_run _)).trans ((bind_run rfl).trans ?_)
    refine (bind_run (modifyMmapAllocator_run (A := ⟨1, none, 0, [], .retain⟩) ?_ _)).trans ?_
    · exact update_self _ _ _
    · simp only [Heap.setMmapAllocator, Heap.granted, Heap.setFile, update_idem]
      rfl
  · simp only [ho, if_false]
    refine (bind_run rfl).trans ?_
    refine (bind_run (modifyMmapAllocator_run (A := ⟨1, none, 0, [], .retain⟩) ?_ _)).trans ?_
    · exact update_self _ _ _
    · simp only [Heap.setMmapAllocator, Heap.granted, update_idem, Heap.withAllocator, ho, if_false]
      rfl

theorem mmapBufferCreate_run (hs : env.Succeeds) :
    mmapBufferCreate env file openAction closeAction h
      = .ok (some (h.next + 3), h.withMmap file openAction closeAction) := by
  unfold mmapBufferCreate
  refine (bind_run (mmapAllocatorCreate_run hs)).trans ?_
  refine (bind_run (request_succeeds hs _)).trans ?_
  exact (bind_run (modify_run _)).trans ((bind_run (modify_run _)).trans rfl)

/-! ## The invariant -/

/-- The heap with a trivial buffer in the place of the mmap buffer. -/
def Heap.withPlain (h : Heap) : Heap :=
  { h with
    next := h.next + 4, calls := h.calls + 4
    pages := update h.pages (h.next + 3) (some { prev := some (h.next + 3), next := some (h.next + 3) })
    buffers := update h.buffers (h.next + 3) (some (newBuffer mmapBufferStrategy)) }

theorem addBuffer_withPlain (h : Heap) :
    AddBuffer h h.withPlain (h.next + 3) mmapBufferStrategy where
  fresh := Nat.le_add_right _ _
  next := Nat.lt_succ_self _
  rest := ⟨_, _, rfl⟩

/-- The references to allocators: the new buffer holds the new one. -/
theorem allocRefs_withMmap (a : Nat) : (h.withMmap file openAction closeAction).allocRefs a
    = h.withPlain.allocRefs a + if h.next = a then 1 else 0 := by
  have hb : h.withPlain.bufferAllocatorOf (h.next + 3) = none := by
    rw [Heap.bufferAllocatorOf, Heap.kindOf, (addBuffer_withPlain h).buffers, update_self]
    rfl
  have hnew : (h.withMmap file openAction closeAction).bufferAllocatorOf
      = update h.withPlain.bufferAllocatorOf (h.next + 3) (some h.next) := by
    funext b
    by_cases hne : b = h.next + 3
    · rw [hne, update_self]
      simp [Heap.bufferAllocatorOf, Heap.kindOf, Heap.withMmap, BufferClass.allocator]
    · rw [update_of_ne hne]
      simp [Heap.bufferAllocatorOf, Heap.kindOf, Heap.withMmap, Heap.withPlain, update_of_ne hne]
  have hcount := holders_update (d := a) (f := h.withPlain.bufferAllocatorOf)
    (v := some h.next) (show h.next + 3 < h.withPlain.next from Nat.lt_succ_self _)
  rw [hb] at hcount
  simp only [reduceCtorEq, if_false, Nat.add_zero, Option.some.injEq] at hcount
  have hdata : (h.withMmap file openAction closeAction).allocatorOf = h.withPlain.allocatorOf := rfl
  have hnext : (h.withMmap file openAction closeAction).next = h.withPlain.next := rfl
  rw [Heap.allocRefs, Heap.allocRefs, hnew, hdata, hnext, hcount]
  omega

section WithMmap

variable (hc : Core h R F X) (hnone : h.mmapAllocators h.next = none)

include hc hnone

theorem Allocs.withMmap : Allocs (h.withMmap file openAction closeAction) := by
  have hk := ((addBuffer_withPlain h).core hc).allocs
  have hzero : h.withPlain.allocRefs h.next = 0 := by
    by_contra hn
    have hlive := (hk.live h.next).mpr (Nat.pos_of_ne_zero hn)
    have : (h.mmapAllocators h.next).isSome := hlive
    simp [hnone] at this
  have hother : ∀ {a A}, h.mmapAllocators a = some A → a ≠ h.next := by
    rintro a A hA rfl
    rw [hnone] at hA
    cases hA
  have hsame : ∀ {a}, a ≠ h.next →
      (h.withMmap file openAction closeAction).mmapAllocators a = h.mmapAllocators a :=
    fun hne => update_of_ne hne _ _
  have hnew : (h.withMmap file openAction closeAction).mmapAllocators h.next
      = some (newMmapAllocator file openAction closeAction) := update_self _ _ _
  exact
    { mapped := fun {d s a off ob} hs hop => by
        obtain ⟨m, M, A, hbase, hM, hlen, hA, hin⟩ := hk.mapped hs hop
        exact ⟨m, M, A, hbase, hM, hlen, (hsame (hother hA)).trans hA, hin⟩
      tree := fun {a A} hA => by
        by_cases he : a = h.next
        · subst he
          rw [hnew] at hA
          cases hA
          exact ⟨List.nodup_nil, fun d hd => by cases hd⟩
        · rw [hsame he] at hA
          exact hk.tree hA
      count := fun {a A} hA => by
        rw [allocRefs_withMmap]
        by_cases he : a = h.next
        · subst he
          rw [hnew] at hA
          cases hA
          rw [hzero, if_pos rfl]
          rfl
        · rw [hsame he] at hA
          rw [if_neg (Ne.symm he), Nat.add_zero]
          exact hk.count hA
      live := fun a => by
        rw [allocRefs_withMmap]
        by_cases he : a = h.next
        · subst he
          simp [hnew]
        · rw [hsame he, if_neg (Ne.symm he), Nat.add_zero]
          exact hk.live a
      freshMapping := hk.freshMapping }

theorem Core.withMmap : Core (h.withMmap file openAction closeAction) R F X := by
  have hk := (addBuffer_withPlain h).core hc
  have hsome : ∀ b, ((h.withMmap file openAction closeAction).buffers b).isSome
      = (h.withPlain.buffers b).isSome := by
    intro b
    by_cases he : b = h.next + 3
    · simp [Heap.withMmap, Heap.withPlain, he]
    · simp [Heap.withMmap, Heap.withPlain, update_of_ne he]
  exact
    { links := hk.links.congr rfl rfl hsome (fun _ => rfl) (Nat.le_refl _)
      views := hk.views.congr rfl rfl hsome (fun _ => rfl) (fun _ hs => hs)
      objs := hk.objs.congr rfl (fun hD => ⟨_, hD, rfl⟩) rfl (Nat.le_refl _) (fun _ => rfl)
      allocs := Allocs.withMmap hc hnone
      writable := fun b hw p hp => by
        have hne : b ≠ h.next + 3 := by
          rintro rfl
          obtain ⟨σ, hσ, -⟩ := hw
          simp [Heap.kindOf, Heap.withMmap] at hσ
        have hkind : (h.withMmap file openAction closeAction).kindOf b = h.withPlain.kindOf b := by
          simp [Heap.kindOf, Heap.withMmap, Heap.withPlain, update_of_ne hne]
        exact (hk.writable b (hw.congr hkind) p hp).congr rfl rfl (fun _ hs => hs) }

end WithMmap

/-- **A new mmap buffer** keeps the invariant. -/
theorem Inv.withMmap (hi : Inv h R) (hnone : h.mmapAllocators h.next = none) :
    Inv (h.withMmap file openAction closeAction) R where
  core := hi.core.withMmap hnone
  totals := by
    have ht := (addBuffer_withPlain h).totals hi.core hi.totals
    intro b B hB
    by_cases he : b = h.next + 3
    · subst he
      have hnil : R (h.next + 3) = [] :=
        hi.core.links.dead ((addBuffer_withPlain h).buffer_none hi.core.links)
      have hB' : some B = some { strategy := mmapBufferStrategy, operations := .mmap h.next } := by
        rw [← hB]
        exact update_self _ _ _
      cases hB'
      rw [hnil]
      rfl
    · refine ht b B ?_
      rw [← hB]
      simp [Heap.withMmap, Heap.withPlain, update_of_ne he]

/-- The buffers and pages that are there stay as they are. -/
theorem buffers_withMmap (hne : b ≠ h.next + 3) :
    (h.withMmap file openAction closeAction).buffers b = h.buffers b := update_of_ne hne _ _

theorem vecOf_withMmap {p : Nat} (hne : p ≠ h.next + 3) :
    (h.withMmap file openAction closeAction).vecOf p = h.vecOf p := by
  unfold Heap.vecOf
  rw [show (h.withMmap file openAction closeAction).pages p = h.pages p from update_of_ne hne _ _]

/-- A file that is not to be overwritten keeps its bytes. -/
theorem pageBytes_withMmap {p : Nat} (hne : p ≠ h.next + 3) (hkeep : openAction ≠ .overwrite) :
    (h.withMmap file openAction closeAction).pageBytes p = h.pageBytes p := by
  have hfiles : (h.withMmap file openAction closeAction).files = h.files := if_neg hkeep
  rw [Heap.pageBytes, Heap.pageBytes, Heap.lenOf, Heap.lenOf, vecOf_withMmap hne]
  exact Heap.bytes_congr (Heap.byteAt_congr rfl rfl hfiles)

theorem opened_withMmap (h : Heap) (file : Nat) (openAction : MmapOpenAction)
    (closeAction : MmapCloseAction) : Opened (h.withMmap file openAction closeAction) (h.next + 3)
      h.next ⟨file, openAction ≠ .read⟩ 0 where
  kind := by simp [Heap.kindOf, Heap.withMmap]
  allocator := ⟨_, update_self _ _ _, rfl, rfl⟩
  head := Nat.zero_le _

end Pb
