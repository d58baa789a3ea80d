import PageBuf.Client.FlatFile

/-!
# Sessions — a file that is opened again

A session makes an mmap buffer over a file, calls its operations and destroys it.
Nothing stays allocated behind, and the next session begins with the file as this
one has left it: the head is not kept, so what has been sought is seen again.
-/

namespace Pb

open StateRun Function Ring RefCount

variable {env : Env} {h h' g : Heap} {openAction : MmapOpenAction} {closeAction : MmapCloseAction}
  {a b file head : Nat} {fd : Fd} {ks : List Block} {f : FlatFile UInt8}
  {l : List (FlatFile.Op UInt8 × Sequence.Answer UInt8)}

/-! ## A heap with nothing in it -/

/-- Nothing is allocated, and what is mapped has got its address. -/
structure Heap.Empty (h : Heap) : Prop where
  pages : ∀ p, h.pages p = none
  datas : ∀ d, h.datas d = none
  buffers : ∀ b, h.buffers b = none
  blocks : ∀ n, h.blocks n = none
  allocators : ∀ a, h.mmapAllocators a = none
  mapping : ∀ {m}, (h.mappings m).isSome → m < h.next

namespace Heap.Empty

variable (e : h.Empty)

include e

theorem shapeOf (d : Nat) : h.shapeOf d = none := by rw [Heap.shapeOf, e.datas]; rfl

theorem dataOf (p : Nat) : h.dataOf p = none := by rw [Heap.dataOf, e.pages]; rfl

theorem refs (d : Nat) : h.refs d = 0 := by
  by_contra hn
  obtain ⟨p, -, hp⟩ := holders_pos_iff.mp (Nat.pos_of_ne_zero hn)
  rw [e.dataOf] at hp
  cases hp

theorem allocRefs (a : Nat) : h.allocRefs a = 0 := by
  by_contra hn
  rcases Nat.add_pos_iff_pos_or_pos.mp (Nat.pos_of_ne_zero hn) with hpos | hpos
  · obtain ⟨d, -, hd⟩ := holders_pos_iff.mp hpos
    rw [Heap.allocatorOf, e.shapeOf] at hd
    cases hd
  · obtain ⟨c, -, hc⟩ := holders_pos_iff.mp hpos
    rw [Heap.bufferAllocatorOf, Heap.kindOf_eq_none.mpr (e.buffers c)] at hc
    cases hc

theorem inv : Inv h (fun _ => []) where
  core :=
    { links :=
        { ring := fun hb => by simp [e.buffers] at hb
          dead := fun _ => rfl
          disj := fun hp => by cases hp
          page := fun hp => by cases hp
          flight := List.nodup_nil
          apart := fun hp => by cases hp
          live := fun p => by simp [e.pages, e.buffers]
          fresh := fun hp => by simp [e.pages] at hp }
      views :=
        { data := fun hp => by simp [e.pages] at hp
          sentinel := fun hb => by simp [e.buffers] at hb
          region := fun hd => by simp [e.dataOf] at hd }
      objs :=
        { live := fun d => by simp [e.shapeOf, Heap.count, e.refs]
          count := fun hD => by simp [e.datas] at hD
          owned := fun hs => by simp [e.shapeOf] at hs
          referenced := fun hs => by simp [e.shapeOf] at hs
          owner := fun hn => by simp [e.blocks] at hn
          excl := fun hs => by simp [e.shapeOf] at hs
          freshData := fun hd => by simp [e.shapeOf] at hd
          freshBlock := fun hn => by simp [e.blocks] at hn }
      allocs :=
        { mapped := fun hs => by simp [e.shapeOf] at hs
          tree := fun hA => by simp [e.allocators] at hA
          count := fun hA => by simp [e.allocators] at hA
          live := fun a => by simp [e.allocators, e.allocRefs]
          freshMapping := e.mapping }
      writable := fun _ _ _ hp => by cases hp }
  totals := fun b B hB => by simp [e.buffers] at hB

/-- A new mmap buffer shows its file from the first byte on. -/
theorem shown (hopen : openAction ≠ .read) :
    Shown (h.withMmap file openAction closeAction) (h.next + 3) h.next file []
      (.whole (if openAction = .overwrite then [] else h.files file)) := by
  have hfd : (⟨file, openAction ≠ .read⟩ : Fd) = ⟨file, true⟩ := by simp [hopen]
  have ho := opened_withMmap h file openAction closeAction
  rw [hfd] at ho
  refine ⟨⟨⟨fun _ => [], ?_⟩, fun hne => (hne rfl).elim⟩, ?_, rfl⟩
  · exact
      { inv := e.inv.withMmap (e.allocators _)
        opened := ho
        alone := fun c hc => (buffers_withMmap hc).trans (e.buffers c)
        ring := rfl
        shows := by simp
        once := List.nodup_nil
        stretch := .nil _
        first := .inl rfl }
  · by_cases hover : openAction = .overwrite
    · simp [Heap.withMmap, hover, FlatFile.whole]
    · simp [Heap.withMmap, hover, FlatFile.whole]

end Heap.Empty

theorem empty_initial (mem : Region → Nat → UInt8) (callerLen : Nat → Nat)
    (files : Nat → List UInt8) : (Heap.initial mem callerLen files).Empty :=
  ⟨fun _ => rfl, fun _ => rfl, fun _ => rfl, fun _ => rfl, fun _ => rfl, fun hm => by cases hm⟩

/-! ## The end of a buffer -/

/-- **`pb_mmap_buffer_destroy`** leaves nothing but the file. -/
theorem Window.destroy_settles (w : Window h b a fd head ks) (hs : env.Succeeds) :
    Settles (ks.length ≤ 65535) (bufferDestroy env b) h
      (fun _ h' => h'.Empty ∧ h'.files fd.file = h.files fd.file) := by
  obtain ⟨B, hB, hop⟩ := w.opened.getBuffer
  have hcall : bufferDestroy env b h
      = (do bufferClear env b; freeBuffer b; mmapAllocatorPut a : PbM Unit) h := by
    have hclear : mmapBufferClear env b a h = bufferClear env b h := by
      refine Eq.symm ((bind_run (getBuffer_run hB)).trans ?_)
      rw [hop]
    refine (bind_run (getBuffer_run hB)).trans ?_
    rw [hop]
    exact bind_same hclear
  refine Settles.of_eq hcall (Settles.bind (w.clear hs) fun _ h₁ hst => ?_)
  obtain ⟨R, m⟩ := hst.window.maps
  have hbare := m.bare
  obtain ⟨A, hA, -⟩ := m.opened.allocator
  have huse : A.useCount = 1 := by
    rw [m.inv.core.allocs.count hA, m.allocRefs_eq]
    rfl
  refine Yields.step (freeBuffer_run m.opened.isSome) ?_
  refine (mmapAllocatorPut_spec (h := h₁.freed b) hA).mono fun _ h' hpost => ?_
  obtain ⟨u, rfl⟩ := hpost
  have hlinks := m.inv.core.links
  have hrefs : ∀ d, h₁.refs d = 0 := fun d => by
    by_contra hn
    obtain ⟨p, -, hp⟩ := holders_pos_iff.mp (Nat.pos_of_ne_zero hn)
    obtain ⟨k, hk, -⟩ := m.page_of_data hp
    cases hk
  have hpages : ∀ p, p ≠ b → h₁.pages p = none := fun p hp => by
    rw [← Option.not_isSome_iff_eq_none, hlinks.live p]
    rintro (hbuf | ⟨c, hc⟩ | hf)
    · rw [m.alone p hp] at hbuf
      cases hbuf
    · by_cases he : c = b
      · rw [he, m.ring] at hc
        cases hc
      · rw [hlinks.dead (m.alone c he)] at hc
        cases hc
    · cases hf
  refine ⟨⟨fun p => ?_, fun d => ?_, fun c => ?_, hbare.blocks, fun c => ?_, hbare.mapping⟩, hst.file⟩
  · by_cases hp : p = b
    · rw [hp]
      exact update_self _ _ _
    · exact (update_of_ne hp _ _).trans (hpages p hp)
  · have hlive := m.inv.core.objs.live d
    rw [Heap.count, hrefs] at hlive
    have hnone : h₁.datas d = none := by simpa [Heap.shapeOf] using hlive
    exact hnone
  · by_cases hc : c = b
    · rw [hc]
      exact update_self _ _ _
    · exact (update_of_ne hc _ _).trans (m.alone c hc)
  · by_cases hc : c = a
    · rw [hc, huse]
      exact update_self _ _ _
    · exact (update_of_ne hc _ _).trans (hbare.allocators c hc)

/-! ## Sessions -/

/-- A session on a file: an mmap buffer from its creation to its end, at which less than 65535 blocks
are mapped. The file stays when the buffer goes. -/
def Session (env : Env) (file : Nat) (openAction : MmapOpenAction) (h : Heap)
    (l : List (FlatFile.Op UInt8 × Sequence.Answer UInt8)) (h' : Heap) : Prop :=
  ∃ b g₁ g₂ r, mmapBufferCreate env file openAction .retain h = .ok (some b, g₁) ∧
    FlatRun env b g₁ l g₂ ∧ (g₂.pagesOf b).length < 65535 ∧
    execMmap env b .destroy g₂ = .ok (r, h')

/-- Sessions one after the other, with the way each opens the file. -/
inductive SessionRun (env : Env) (file : Nat) (h : Heap) :
    List (MmapOpenAction × List (FlatFile.Op UInt8 × Sequence.Answer UInt8)) → Heap → Prop where
  | nil : SessionRun env file h [] h
  | snoc {ls g l h' openAction} : SessionRun env file h ls g →
      Session env file openAction g l h' → SessionRun env file h (ls ++ [(openAction, l)]) h'

/-- **One session** is one use of the file, and leaves nothing in the heap. -/
theorem Session.refines (hrun : Session env file openAction h l h') (hs : env.Succeeds)
    (hopen : openAction ≠ .read) (e : h.Empty) : h'.Empty ∧
      ∃ f, FlatFile.Run 0 (.whole (if openAction = .overwrite then [] else h.files file)) l f ∧
        h'.files file = f.items := by
  obtain ⟨b, g₁, g₂, r, hcreate, hcalls, hfew, hdestroy⟩ := hrun
  rw [mmapBufferCreate_run hs] at hcreate
  cases hcreate
  obtain ⟨ks, f, v, hflat⟩ := hcalls.shown hs (e.shown hopen)
  rw [v.length_pagesOf] at hfew
  obtain ⟨u, g, hend, hempty, hfile⟩ := (v.window.destroy_settles hs).yields (Nat.le_of_lt hfew)
  have hend' : execMmap env (h.next + 3) .destroy g₂ = .ok (.unit, g) := (bind_run hend).trans rfl
  rw [hend'] at hdestroy
  cases hdestroy
  exact ⟨hempty, f, hflat, hfile.trans v.items⟩

/-- A new buffer over an empty file, and the buffer after a byte has been written and sought. -/
def Heap.fileOpened : Heap := Heap.blank.withMmap 0 .append .retain

def Heap.fileWritten : Heap := Heap.fileOpened.afterMmap .generous 3 (.writeData [7])

def Heap.filePassed : Heap := Heap.fileWritten.afterMmap .generous 3 (.seek 1)

theorem session_passed : Session .generous 0 .append .blank
    [(.write [7], .count 1), (.seek 1, .count 1)] (Heap.filePassed.afterMmap .generous 3 .destroy) := by
  have hwritten : FlatRun .generous 3 .fileOpened [(.write [7], .count 1)] .fileWritten :=
    (@FlatRun.call _ _ _ _ _ _ (.writeData [7]) _ (.count 1)) .nil rfl (by decide +kernel)
      (execMmap_after (by decide +kernel))
  have hpassed : FlatRun .generous 3 .fileOpened [(.write [7], .count 1), (.seek 1, .count 1)] .filePassed :=
    (@FlatRun.call _ _ _ _ _ _ (.seek 1) _ (.count 1)) hwritten rfl (by decide +kernel)
      (execMmap_after (by decide +kernel))
  exact ⟨3, .fileOpened, .filePassed, .unit, mmapBufferCreate_run succeeds_generous, hpassed,
    by decide +kernel, execMmap_after (by decide +kernel)⟩

end Pb
