import PageBuf.Invariant.WindowMap

/-!
# WindowIterators — the iterators of an mmap buffer

An iterator stands at an offset of the file, where its page begins or ends. A
step inside the window changes nothing; a step over its end or its beginning
maps the page behind it or before it.
-/

namespace Pb

open StateRun Function Ring

variable {env : Env} {h h' : Heap} {R : Nat → List Nat} {a b head it size x : Nat} {fd : Fd}
  {k : Block} {ks ks' l₁ l₂ : List Block}

/-- The window of the mmap buffer `b` are the blocks `ks`. Of a file that is not
open for writing nothing is ever mapped. -/
structure Window (h : Heap) (b a : Nat) (fd : Fd) (head : Nat) (ks : List Block) : Prop where
  maps : ∃ R, Maps h R b a fd head ks
  writable : ks ≠ [] → fd.writable = true

/-- The bytes from the iterator on are those of the file from the offset on. -/
inductive BeginsAt (ks : List Block) (b size : Nat) : Nat → Nat → Prop where
  | page {k : Block} (mem : k ∈ ks) : BeginsAt ks b size k.page k.start
  | last : BeginsAt ks b size b size

/-- The bytes up to the iterator's page, with it, are those up to the offset. -/
inductive EndsAt (ks : List Block) (b head : Nat) : Nat → Nat → Prop where
  | page {k : Block} (mem : k ∈ ks) : EndsAt ks b head k.page k.stop
  | first : EndsAt ks b head b head

theorem beginsAt_iff : BeginsAt ks b size it x ↔
    (∃ k ∈ ks, it = k.page ∧ x = k.start) ∨ it = b ∧ x = size := by
  constructor
  · intro hp
    cases hp with
    | page mem => exact .inl ⟨_, mem, rfl, rfl⟩
    | last => exact .inr ⟨rfl, rfl⟩
  · rintro (⟨k, hk, rfl, rfl⟩ | ⟨rfl, rfl⟩)
    · exact .page hk
    · exact .last

theorem endsAt_iff : EndsAt ks b head it x ↔
    (∃ k ∈ ks, it = k.page ∧ x = k.stop) ∨ it = b ∧ x = head := by
  constructor
  · intro hp
    cases hp with
    | page mem => exact .inl ⟨_, mem, rfl, rfl⟩
    | first => exact .inr ⟨rfl, rfl⟩
  · rintro (⟨k, hk, rfl, rfl⟩ | ⟨rfl, rfl⟩)
    · exact .page hk
    · exact .first

/-! ## A file that is open for reading only -/

namespace Maps

variable (m : Maps h R b a fd head []) (hos : env.SystemGrants) (hw : fd.writable = false)

include m hw

/-- Nothing of the file is mapped, and nothing can be. -/
theorem lookup_refused (off start size : Nat) :
    mmapAllocatorMapBlock env a off start size h = .ok (none, h) := by
  obtain ⟨A, hA, hfd, -⟩ := m.opened.allocator
  have htree : A.dataTree = [] := by
    refine List.eq_nil_iff_forall_not_mem.mpr fun d hd => ?_
    obtain ⟨s, off, hshape, -⟩ := (m.inv.core.allocs.tree hA).2 d hd
    obtain ⟨k, hk, -⟩ := m.block_of_data hshape
    cases hk
  have hcreate : mmapAllocatorDataCreate env a off (mmapLenOf size off) h = .ok (none, h) := by
    unfold mmapAllocatorDataCreate mmap64
    refine (bind_run (getMmapAllocator_run hA)).trans ?_
    simp only [hfd, hw, Bool.not_false, Bool.or_true, if_true]
    rfl
  unfold mmapAllocatorMapBlock
  refine (bind_run (getMmapAllocator_run hA)).trans ?_
  rw [htree]
  exact (bind_run (a := none) rfl).trans ((bind_run hcreate).trans rfl)

include hos

theorem mapForward_refused :
    mmapAllocatorPageMapForward env a ((R b).getLastD b) h = .ok (none, h.granted) := by
  by_cases he : stopOf [] head = (h.files fd.file).length
  · exact m.mapForward_end hos he
  · obtain ⟨A, hA, hfd, hhead⟩ := m.opened.allocator
    have m₁ := m.idle (Idle.granted h) ⟨m.inv.core.idle (Idle.granted h), m.inv.totals⟩
    unfold mmapAllocatorPageMapForward
    refine (bind_run (getMmapAllocator_run hA)).trans ?_
    simp only [hfd, hhead]
    refine (m.forwardOffset_run hos _).trans ?_
    rw [if_neg he]
    exact (bind_run (m₁.lookup_refused hw _ _ _)).trans rfl

theorem mapBackward_refused :
    mmapAllocatorPageMapBackward env a ((R b).headD b) h = .ok (none, h.granted) := by
  by_cases he : (([] : List Block).head?.map Block.start).getD (h.files fd.file).length ≤ head
  · exact m.mapBackward_head hos he
  · obtain ⟨A, hA, hfd, hhead⟩ := m.opened.allocator
    have m₁ := m.idle (Idle.granted h) ⟨m.inv.core.idle (Idle.granted h), m.inv.totals⟩
    unfold mmapAllocatorPageMapBackward
    refine (bind_run (getMmapAllocator_run hA)).trans ?_
    simp only [hfd, hhead]
    refine (m.backwardOffset_run hos _).trans ?_
    rw [if_neg he]
    exact (bind_run (m₁.lookup_refused hw _ _ _)).trans rfl

end Maps

/-! ## The pages at the ends of the window -/

namespace Maps

variable (m : Maps h R b a fd head ks)

include m

theorem page_mem (hk : k ∈ ks) : k.page ∈ R b := by
  rw [m.ring]
  exact List.mem_map_of_mem hk

theorem page_ne (hk : k ∈ ks) : k.page ≠ b :=
  fun he => m.inv.core.links.notMem_self m.opened.isSome (he ▸ m.page_mem hk)

theorem granted : Maps h.granted R b a fd head ks :=
  m.idle (Idle.granted h) ⟨m.inv.core.idle (Idle.granted h), m.inv.totals⟩

/-- **The page behind the window**, mapped and linked. -/
theorem growBehind (hs : env.Succeeds) (hw : fd.writable = true)
    (hlt : stopOf ks head < (h.files fd.file).length) :
    ∃ h₁ k, mmapAllocatorPageMapForward env a ((R b).getLastD b) h = .ok (some k.page, h₁) ∧
      k.start = stopOf ks head ∧ Yields (trivialBufferInsert env b b 0 k.page) h₁ (fun len h' =>
        len ≠ 0 ∧ Turned h h' b 0 ∧
        trivialBufferNextIterator ((R b).getLastD b) h' = .ok (k.page, h') ∧
        ∃ ks', Window h' b a fd head ks' ∧ k ∈ ks' ∧ startOf ks' head = startOf ks head ∧
          stopOf ks' head = k.stop) := by
  obtain ⟨h₁, old, k, hmap, n, hstart, hs'⟩ := m.mapForward hs hw hlt
  have hle : head < (h.files fd.file).length := by
    have hstop := m.stretch.start_le_stop head
    rcases m.first with he | ⟨hlt', -⟩ <;> omega
  have hlink := m.linkBehind hs.system n hs' hle (by
    intro hnil
    rw [hnil] at hstart
    exact .inl hstart)
  refine ⟨h₁, k, hmap, hstart, hlink.mono fun len h' hpost => ?_⟩
  obtain ⟨hlen, ht, m'⟩ := hpost
  have hring : update R b (R b ++ [k.page]) b = R b ++ [k.page] := update_self _ _ _
  refine ⟨hlen, ht, nextIterator_cut m'.inv.core.links m'.opened.isSome hring, _, ⟨⟨_, m'⟩,
    fun _ => hw⟩, by simp, ?_, stopOf_concat⟩
  cases ks with
  | nil => exact hstart
  | cons k' l => simp

/-- **The page before the window**, mapped and linked. It leaves the revision only
where the window is empty. -/
theorem growBefore (hs : env.Succeeds) (hw : fd.writable = true) {cur : Nat}
    (hcur : cur = (ks.head?.map Block.start).getD (h.files fd.file).length) (hlt : head < cur) :
    ∃ h₁ k, mmapAllocatorPageMapBackward env a ((R b).headD b) h = .ok (some k.page, h₁) ∧
      k.stop = cur ∧ trivialBufferGetIterator b h₁ = .ok ((R b).headD b, h₁) ∧
      Yields (trivialBufferInsert env b ((R b).headD b) 0 k.page) h₁ (fun len h' =>
        len ≠ 0 ∧ Turned h h' b (if ks = [] then 0 else 1) ∧
        trivialBufferPrevIterator ((R b).headD b) h' = .ok (k.page, h') ∧
        ∃ ks', Window h' b a fd head ks' ∧ k ∈ ks') := by
  obtain ⟨h₁, k, hmap, n, hstop, hfirst, hs'⟩ := m.mapBackward hs hw hcur hlt
  have hget := getIterator_run n.core.links n.opened.isSome
  refine ⟨h₁, k, hmap, hstop, hget, ?_⟩
  have hsize : cur ≤ (h.files fd.file).length := hcur ▸ m.first_le
  by_cases hnil : ks = []
  · -- in an empty ring the place before the first page is the end
    subst hnil
    have hring : R b = [] := m.ring
    rw [hring]
    refine (m.linkBehind hs.system n hs' (by omega) fun _ => hfirst).mono fun len h' hpost => ?_
    obtain ⟨hlen, ht, m'⟩ := hpost
    have hring' : update R b (R b ++ [k.page]) b = [k.page] ++ [] := by rw [update_self, hring]; rfl
    exact ⟨hlen, ht, prevIterator_run m'.inv.core.links m'.opened.isSome hring', _,
      ⟨⟨_, m'⟩, fun _ => hw⟩, by simp⟩
  · refine (m.linkBefore n hnil hs' hfirst).mono fun len h' hpost => ?_
    obtain ⟨hlen, ht, m'⟩ := hpost
    have hring' : update R b (k.page :: R b) b = [k.page] ++ R b := update_self _ _ _
    refine ⟨hlen, ?_, prevIterator_run m'.inv.core.links m'.opened.isSome hring', _,
      ⟨⟨_, m'⟩, fun _ => hw⟩, by simp⟩
    rwa [if_neg hnil]

end Maps

/-! ## The iterators -/

/-- Counting a call is no change. -/
theorem Turned.granted (h : Heap) (b : Nat) : Turned h h.granted b 0 := ⟨rfl, rfl⟩

namespace Window

variable (w : Window h b a fd head ks)

include w

/-- The window in the eyes of the code, which takes the branch of the class. -/
theorem bufferNextIterator_eq (it : Nat) :
    bufferNextIterator env b it h = mmapBufferNextIterator env b a it h := by
  obtain ⟨R, m⟩ := w.maps
  obtain ⟨B, hB, hk⟩ := Option.map_eq_some_iff.mp m.opened.kind
  refine (bind_run (getBuffer_run hB)).trans ?_
  rw [(Prod.mk.inj hk).2]

theorem bufferPrevIterator_eq (it : Nat) :
    bufferPrevIterator env b it h = mmapBufferPrevIterator env b a it h := by
  obtain ⟨R, m⟩ := w.maps
  obtain ⟨B, hB, hk⟩ := Option.map_eq_some_iff.mp m.opened.kind
  refine (bind_run (getBuffer_run hB)).trans ?_
  rw [(Prod.mk.inj hk).2]

theorem bufferGetIterator_eq :
    bufferGetIterator env b h = mmapBufferGetIterator env b a h := by
  obtain ⟨R, m⟩ := w.maps
  obtain ⟨B, hB, hk⟩ := Option.map_eq_some_iff.mp m.opened.kind
  refine (bind_run (getBuffer_run hB)).trans ?_
  rw [(Prod.mk.inj hk).2]

theorem granted : Window h.granted b a fd head ks := by
  obtain ⟨R, m⟩ := w.maps
  exact ⟨⟨R, m.granted⟩, w.writable⟩

/-- What lies behind the window is mapped by a step over its end. -/
theorem nextIterator_behind (hs : env.Succeeds) (hw : fd.writable = true) {it : Nat}
    (hit : it = (ks.map Block.page).getLastD b) :
    Yields (bufferNextIterator env b it) h (fun it' h' => Turned h h' b 0 ∧
      ∃ ks', Window h' b a fd head ks' ∧ startOf ks' head = startOf ks head ∧
        stopOf ks head ≤ stopOf ks' head ∧
        BeginsAt ks' b (h.files fd.file).length it' (stopOf ks head)) := by
  obtain ⟨R, m⟩ := w.maps
  have hl := m.inv.core.links
  have hb := m.opened.isSome
  rw [← m.ring] at hit
  have hnext : trivialBufferNextIterator it h = .ok (b, h) := by
    rw [hit]
    exact nextIterator_cut hl hb (List.append_nil _).symm
  have hprev : trivialBufferPrevIterator b h = .ok ((R b).getLastD b, h) :=
    (@prevIterator_run _ _ _ _ []) hl hb (List.append_nil _).symm
  refine Yields.of_eq (w.bufferNextIterator_eq _) ?_
  refine Yields.step hnext ?_
  simp only [trivialBufferIsEndIterator, decide_true, if_true]
  refine Yields.step hprev ?_
  by_cases he : stopOf ks head = (h.files fd.file).length
  · refine Yields.step (m.mapForward_end hs.system he) ?_
    refine yields_pure.mpr ⟨.granted h b, ks, w.granted, rfl, Nat.le_refl _, ?_⟩
    rw [he]
    exact .last
  · have hlt : stopOf ks head < (h.files fd.file).length := by
      have := m.stretch.stop_le_size m.opened.head
      omega
    obtain ⟨h₁, k, hmap, hstart, hlink⟩ := m.growBehind hs hw hlt
    refine Yields.step hmap (Yields.pure_bind (Yields.bind hlink ?_))
    intro len h' hpost
    obtain ⟨hlen, ht, hrun, ks', w', hk, hfirst, hstop⟩ := hpost
    rw [if_neg hlen]
    obtain ⟨R', m'⟩ := w'.maps
    have hfit := (m'.stretch.fits k hk).start
    refine Yields.intro hrun ⟨ht, ks', w', hfirst, by omega, ?_⟩
    rw [← hstart]
    exact .page hk

/-- **`pb_buffer_next_iterator`** from a page: what comes next begins where the page
ends. -/
theorem nextIterator (hs : env.Succeeds) (hk : k ∈ ks) :
    Yields (bufferNextIterator env b k.page) h (fun it' h' => Turned h h' b 0 ∧
      ∃ ks', Window h' b a fd head ks' ∧ startOf ks' head = startOf ks head ∧
        stopOf ks head ≤ stopOf ks' head ∧
        BeginsAt ks' b (h.files fd.file).length it' k.stop) := by
  obtain ⟨R, m⟩ := w.maps
  obtain ⟨l₁, l₂, hl⟩ := List.append_of_mem hk
  cases l₂ with
  | nil =>
      have hlast : stopOf ks head = k.stop := by rw [hl, stopOf_concat]
      rw [← hlast]
      refine w.nextIterator_behind hs (w.writable (List.ne_nil_of_mem hk)) ?_
      rw [hl, List.map_append]
      exact (getLastD_concat b _ _).symm
  | cons k' l₂ =>
      have hk' : k' ∈ ks := by simp [hl]
      have hring : R b = l₁.map Block.page ++ k.page :: (k' :: l₂).map Block.page := by
        rw [m.ring, hl, List.map_append]
        rfl
      have hnext : trivialBufferNextIterator k.page h = .ok (k'.page, h) :=
        nextIterator_run m.inv.core.links m.opened.isSome hring
      have hstart : k'.start = k.stop := (hl ▸ m.stretch).start_behind
      refine Yields.of_eq (w.bufferNextIterator_eq _) ?_
      refine Yields.step hnext ?_
      simp only [trivialBufferIsEndIterator, m.page_ne hk', decide_false, Bool.false_eq_true,
        if_false]
      refine yields_pure.mpr ⟨.refl h b, ks, w, rfl, Nat.le_refl _, ?_⟩
      rw [← hstart]
      exact .page hk'

/-- The first page: the window begins with it, or it is mapped. -/
theorem nextIterator_end (hs : env.Succeeds) :
    Yields (bufferNextIterator env b b) h (fun it' h' => Turned h h' b 0 ∧
      ∃ ks', Window h' b a fd head ks' ∧ startOf ks' head = startOf ks head ∧
        stopOf ks head ≤ stopOf ks' head ∧
        BeginsAt ks' b (h.files fd.file).length it'
          (if fd.writable then startOf ks head else (h.files fd.file).length)) := by
  obtain ⟨R, m⟩ := w.maps
  have hl := m.inv.core.links
  have hb := m.opened.isSome
  cases ks with
  | nil =>
      by_cases hw : fd.writable = true
      · simp only [hw, if_true]
        exact w.nextIterator_behind hs hw rfl
      · have hw' : fd.writable = false := Bool.not_eq_true _ ▸ hw
        have hring : R b = [] := m.ring
        have hnext : trivialBufferNextIterator b h = .ok (b, h) :=
          (@nextIterator_cut _ _ _ [] []) hl hb hring
        have hprev : trivialBufferPrevIterator b h = .ok (b, h) :=
          (@prevIterator_run _ _ _ [] []) hl hb hring
        have hmap : mmapAllocatorPageMapForward env a b h = .ok (none, h.granted) := by
          have := m.mapForward_refused hs.system hw'
          rwa [hring] at this
        refine Yields.of_eq (w.bufferNextIterator_eq _) ?_
        refine Yields.step hnext ?_
        simp only [trivialBufferIsEndIterator, decide_true, if_true]
        refine Yields.step hprev (Yields.step hmap ?_)
        refine yields_pure.mpr ⟨.granted h b, [], w.granted, rfl, Nat.le_refl _, ?_⟩
        simp only [hw', Bool.false_eq_true, if_false]
        exact .last
  | cons k l =>
      have hring : R b = [] ++ k.page :: l.map Block.page := m.ring
      have hnext : trivialBufferNextIterator b h = .ok (k.page, h) :=
        (@nextIterator_cut _ _ _ []) hl hb hring
      have hw := w.writable (List.cons_ne_nil k l)
      refine Yields.of_eq (w.bufferNextIterator_eq _) ?_
      refine Yields.step hnext ?_
      simp only [trivialBufferIsEndIterator, m.page_ne List.mem_cons_self, decide_false,
        Bool.false_eq_true, if_false, hw, if_true]
      refine yields_pure.mpr ⟨.refl h b, k :: l, w, rfl, Nat.le_refl _, ?_⟩
      exact .page List.mem_cons_self

/-- **`pb_buffer_get_iterator`**, which does what a step from the end does. -/
theorem getIterator (hs : env.Succeeds) :
    Yields (bufferGetIterator env b) h (fun it' h' => Turned h h' b 0 ∧
      ∃ ks', Window h' b a fd head ks' ∧ startOf ks' head = startOf ks head ∧
        stopOf ks head ≤ stopOf ks' head ∧
        BeginsAt ks' b (h.files fd.file).length it'
          (if fd.writable then startOf ks head else (h.files fd.file).length)) := by
  have hsame : bufferGetIterator env b h = bufferNextIterator env b b h := by
    obtain ⟨R, m⟩ := w.maps
    have hl := m.inv.core.links
    have hb := m.opened.isSome
    rw [w.bufferGetIterator_eq, w.bufferNextIterator_eq]
    have hget := getIterator_run hl hb
    have hnext : trivialBufferNextIterator b h = .ok ((R b).headD b, h) :=
      (@nextIterator_cut _ _ _ []) hl hb rfl
    refine (bind_run hget).trans ((bind_run hnext).trans ?_).symm
    by_cases hend : trivialBufferIsEndIterator b ((R b).headD b)
    · simp only [hend, if_true]
      have hhead : (R b).headD b = b := by simpa [trivialBufferIsEndIterator] using hend
      have hnil : R b = [] := (hl.headD_eq_self_iff hb).mp hhead
      have hprev : trivialBufferPrevIterator ((R b).headD b) h = .ok (b, h) :=
        (@prevIterator_run _ _ _ []) hl hb rfl
      rw [hhead] at hprev ⊢
      exact bind_run hprev
    · simp only [hend, Bool.false_eq_true, if_false]
  exact Yields.of_eq hsame (w.nextIterator_end hs)

/-- What lies before the window is mapped by a step over its beginning, which bumps
the revision unless the window is empty. -/
theorem prevIterator_before (hs : env.Succeeds) (hw : fd.writable = true) {it cur : Nat}
    (hit : it = (ks.map Block.page).headD b)
    (hcur : cur = (ks.head?.map Block.start).getD (h.files fd.file).length) :
    Yields (bufferPrevIterator env b it) h (fun it' h' =>
      Turned h h' b (if ks ≠ [] ∧ head < cur then 1 else 0) ∧
      ∃ ks', Window h' b a fd head ks' ∧ EndsAt ks' b head it' cur) := by
  obtain ⟨R, m⟩ := w.maps
  have hl := m.inv.core.links
  have hb := m.opened.isSome
  rw [← m.ring] at hit
  have hprev : trivialBufferPrevIterator it h = .ok (b, h) := by
    rw [hit]
    exact (@prevIterator_run _ _ _ []) hl hb rfl
  have hnext : trivialBufferNextIterator b h = .ok ((R b).headD b, h) :=
    (@nextIterator_cut _ _ _ []) hl hb rfl
  have hge : head ≤ cur := by
    rw [hcur]
    cases ks with
    | nil => exact m.opened.head
    | cons k l =>
        have hfirst := m.first
        rw [startOf_cons] at hfirst
        show head ≤ k.start
        omega
  refine Yields.of_eq (w.bufferPrevIterator_eq _) ?_
  refine Yields.step hprev ?_
  simp only [trivialBufferIsEndIterator, decide_true, if_true]
  refine Yields.step hnext ?_
  rcases Nat.lt_or_eq_of_le hge with hlt | he
  · obtain ⟨h₁, k, hmap, hstop, hget, hlink⟩ := m.growBefore hs hw hcur hlt
    refine Yields.step hmap (Yields.step hget (Yields.bind hlink ?_))
    intro len h' hpost
    obtain ⟨hlen, ht, hrun, ks', w', hk⟩ := hpost
    rw [if_neg hlen]
    refine Yields.intro hrun ⟨?_, ks', w', ?_⟩
    · by_cases hnil : ks = []
      · simpa [hnil] using ht
      · simpa [hnil, hlt] using ht
    · rw [← hstop]
      exact .page hk
  · refine Yields.step (m.mapBackward_head hs.system (hcur ▸ he.symm.le)) ?_
    refine yields_pure.mpr ⟨?_, ks, w.granted, ?_⟩
    · rw [if_neg (by omega)]
      exact .granted h b
    · rw [← he]
      exact .first

/-- **`pb_buffer_prev_iterator`** from a page: what comes before ends where the page
begins. At the first page the revision is bumped unless the buffer begins there. -/
theorem prevIterator (hs : env.Succeeds) (hk : k ∈ ks) :
    Yields (bufferPrevIterator env b k.page) h (fun it' h' =>
      Turned h h' b (if k.start = startOf ks head ∧ head < startOf ks head then 1 else 0) ∧
      ∃ ks', Window h' b a fd head ks' ∧ EndsAt ks' b head it' k.start) := by
  obtain ⟨R, m⟩ := w.maps
  have hw := w.writable (List.ne_nil_of_mem hk)
  obtain ⟨l₁, l₂, hl⟩ := List.append_of_mem hk
  rcases List.eq_nil_or_concat' l₁ with rfl | ⟨l, k', rfl⟩
  · have hstart : startOf ks head = k.start := by rw [hl]; rfl
    have hcur : k.start = (ks.head?.map Block.start).getD (h.files fd.file).length := by
      rw [hl]
      rfl
    refine (w.prevIterator_before hs hw (by rw [hl]; rfl) hcur).mono fun it' h' hpost => ?_
    obtain ⟨ht, hrest⟩ := hpost
    refine ⟨?_, hrest⟩
    rw [hstart]
    simpa [List.ne_nil_of_mem hk] using ht
  · have hk' : k' ∈ ks := by simp [hl]
    have hring : R b = (l ++ [k']).map Block.page ++ (k :: l₂).map Block.page := by
      rw [m.ring, hl, List.map_append]
    have hprev : trivialBufferPrevIterator k.page h = .ok (k'.page, h) := by
      have := prevIterator_run m.inv.core.links m.opened.isSome hring
      rw [List.map_append] at this
      exact this.trans (by rw [List.map_singleton, getLastD_concat])
    have hstart : k.start = k'.stop := by
      have hstretch := m.stretch
      rw [hl, List.append_assoc] at hstretch
      exact hstretch.start_behind
    -- the page is not the first one
    have hfirst : startOf ks head ≤ k'.start := m.stretch.start_le hk' head
    have hfit := (m.stretch.fits k' hk').start
    refine Yields.of_eq (w.bufferPrevIterator_eq _) ?_
    refine Yields.step hprev ?_
    simp only [trivialBufferIsEndIterator, m.page_ne hk', decide_false, Bool.false_eq_true,
      if_false]
    refine yields_pure.mpr ⟨?_, ks, w, ?_⟩
    · rw [if_neg (by omega)]
      exact .refl h b
    · rw [hstart]
      exact .page hk'

/-- The last page: the window ends with it, or it is mapped. The revision stays. -/
theorem prevIterator_end (hs : env.Succeeds) :
    Yields (bufferPrevIterator env b b) h (fun it' h' => Turned h h' b 0 ∧
      ∃ ks', Window h' b a fd head ks' ∧ EndsAt ks' b head it'
        (if fd.writable then if ks = [] then (h.files fd.file).length else stopOf ks head
          else head)) := by
  obtain ⟨R, m⟩ := w.maps
  have hl := m.inv.core.links
  have hb := m.opened.isSome
  rcases List.eq_nil_or_concat' ks with rfl | ⟨l, k, rfl⟩
  · by_cases hw : fd.writable = true
    · simp only [hw, if_true]
      exact (w.prevIterator_before hs hw rfl rfl).mono (by simp)
    · have hw' : fd.writable = false := Bool.not_eq_true _ ▸ hw
      have hring : R b = [] := m.ring
      have hprev : trivialBufferPrevIterator b h = .ok (b, h) :=
        (@prevIterator_run _ _ _ [] []) hl hb hring
      have hnext : trivialBufferNextIterator b h = .ok (b, h) :=
        (@nextIterator_cut _ _ _ [] []) hl hb hring
      have hmap : mmapAllocatorPageMapBackward env a b h = .ok (none, h.granted) := by
        have := m.mapBackward_refused hs.system hw'
        rwa [hring] at this
      refine Yields.of_eq (w.bufferPrevIterator_eq _) ?_
      refine Yields.step hprev ?_
      simp only [trivialBufferIsEndIterator, decide_true, if_true]
      refine Yields.step hnext (Yields.step hmap ?_)
      refine yields_pure.mpr ⟨.granted h b, [], w.granted, ?_⟩
      simp only [hw', Bool.false_eq_true, if_false]
      exact .first
  · have hk : k ∈ l ++ [k] := by simp
    have hring : R b = (l ++ [k]).map Block.page ++ [] := by rw [m.ring, List.append_nil]
    have hprev : trivialBufferPrevIterator b h = .ok (k.page, h) := by
      have := (@prevIterator_run _ _ _ _ []) hl hb hring
      rw [List.map_append] at this
      exact this.trans (by rw [List.map_singleton, getLastD_concat])
    have hw := w.writable (List.ne_nil_of_mem hk)
    refine Yields.of_eq (w.bufferPrevIterator_eq _) ?_
    refine Yields.step hprev ?_
    simp only [trivialBufferIsEndIterator, m.page_ne hk, decide_false, Bool.false_eq_true,
      if_false]
    refine yields_pure.mpr ⟨.refl h b, l ++ [k], w, ?_⟩
    simp only [hw, if_true, List.append_ne_nil_of_right_ne_nil l (List.cons_ne_nil k []), if_false,
      stopOf_concat]
    exact .page hk

end Window

end Pb
