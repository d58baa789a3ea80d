import PageBuf.Client.Iteration

/-!
# Tiling — what is mapped of a file

The pages of an mmap buffer lie side by side in its file, each inside one block
of 4096 bytes and inside its mapping. The lengths and distances that the mapping
functions compute by unsigned subtraction are those of this picture: none of the
subtractions wraps.
-/

namespace Pb

open StateRun Function Ring

variable {env : Env} {h : Heap} {openAction : MmapOpenAction} {R : Nat → List Nat}
  {a b head size off start file it x y z : Nat} {fd : Fd} {k : Block} {ks : List Block}
  {l : List Nat}

/-! ## The pages in the file -/

/-- The page shows the bytes of the file from `x` to `y`. They lie in one block of the file, at
which its data's mapping begins, and inside that mapping. -/
structure Heap.ShowsFile (h : Heap) (file p d : Nat) (D : Data) (x y : Nat) : Prop where
  page : h.dataOf p = some d
  data : h.datas d = some D
  operations : ∃ a obsolete, D.operations = .mmap a (mmapOffsetOf x) obsolete
  mapping : ∃ m, D.dataVec.base = ⟨.mapped m, 0⟩ ∧
    h.mappings m = some ⟨file, mmapOffsetOf x, D.dataVec.len⟩
  vec : h.vecOf p = ⟨D.dataVec.base.add (x - mmapOffsetOf x), y - x⟩
  filled : x < y
  inside : y ≤ mmapOffsetOf x + D.dataVec.len
  block : y ≤ mmapOffsetOf x + mmapBaseSize

/-- The pages, in order, show the bytes of the file from one offset to another. -/
inductive Heap.Tiles (h : Heap) (file : Nat) : List Nat → Nat → Nat → Prop where
  | nil {x : Nat} : Heap.Tiles h file [] x x
  | cons {p d : Nat} {D : Data} {l : List Nat} {x y z : Nat} :
      h.ShowsFile file p d D x y → Heap.Tiles h file l y z → Heap.Tiles h file (p :: l) x z

theorem Heap.Tiles.le (t : h.Tiles file l x y) : x ≤ y := by
  induction t with
  | nil => exact Nat.le_refl _
  | cons hp _ ih => exact Nat.le_trans (Nat.le_of_lt hp.filled) ih

theorem Heap.Shows.showsFile (hk : h.Shows a file k) (hfit : k.Fits size) :
    ∃ d D, h.ShowsFile file k.page d D k.start k.stop := by
  obtain ⟨D, hD, hshape⟩ := Option.map_eq_some_iff.mp hk.shape
  have hvec : D.dataVec = ⟨⟨.mapped k.mapping, 0⟩, k.len⟩ := congrArg Shape.dataVec hshape
  have hop : D.operations = .mmap a k.offset k.obsolete := congrArg Shape.operations hshape
  have hoff := hfit.offset
  have hlen := hfit.len
  refine ⟨k.data, D, ?_⟩
  exact
    { page := hk.data
      data := hD
      operations := ⟨a, k.obsolete, by rw [hop, hoff]⟩
      mapping := ⟨k.mapping, by rw [hvec], by rw [hk.mapping, hvec, hoff]⟩
      vec := by
        rw [hk.vec, hvec, hoff, Ptr.add, Nat.zero_add]
      filled := hfit.start
      inside := by
        rw [hvec, ← hoff]
        exact Nat.le_refl _
      block := by
        rw [← hoff]
        exact Nat.add_le_add_left hlen _ }

/-- The blocks of a stretch lie side by side. -/
theorem Stretch.tiles (s : Stretch ks size) (hshows : ∀ k ∈ ks, h.Shows a file k) (head : Nat) :
    h.Tiles file (ks.map Block.page) (startOf ks head) (stopOf ks head) := by
  induction ks generalizing head with
  | nil => exact .nil
  | cons k ks ih =>
      have hrest := ih s.tail (fun k' hk' => hshows k' (List.mem_cons_of_mem k hk')) k.stop
      obtain ⟨d, D, hk⟩ :=
        (hshows k List.mem_cons_self).showsFile (s.fits k List.mem_cons_self)
      rw [s.start_next] at hrest
      exact .cons hk hrest

/-! ## Subtractions that must not wrap -/

/-- An unsigned subtraction that faults where it would wrap. -/
def checkedSub (a b : Nat) : PbM Nat := if b ≤ a then pure (a - b) else throw .assertion

theorem checkedSub_eq (hle : y ≤ x) : checkedSub x y = pure (wrapSub x y) := by
  rw [checkedSub, if_pos hle, wrapSub_of_le hle]

/-- `mmapLenOf`, its subtraction checked. -/
def mmapLenOfChecked (fileSize mmapOffset : Nat) : PbM Nat := do
  let left ← checkedSub fileSize mmapOffset
  pure (if mmapBaseSize < left then mmapBaseSize else left)

/-- `mmapAllocatorMapBlock`, its subtractions checked. -/
def mmapAllocatorMapBlockChecked (env : Env) (a mmapOffset fileOffset fileSize : Nat) :
    PbM (Option (Nat × Nat)) := do
  let A ← getMmapAllocator a
  match ← dataTreeFind mmapOffset A.dataTree with
  | some d => do
      let mmapLen := (← getData d).dataVec.len
      if mmapOffset + mmapLen ≥ fileOffset + mmapBaseSize then do
        dataGet d
        pure (some (d, mmapLen))
      else if mmapLen < mmapBaseSize ∧ mmapOffset + mmapLen < fileSize then do
        let mmapLen ← mmapLenOfChecked fileSize mmapOffset
        match ← mmapAllocatorDataCreate env a mmapOffset mmapLen with
        | none => pure none
        | some newData => do
            dataTreeDel a d
            markObsolete d
            dataTreeAdd a newData
            pure (some (newData, mmapLen))
      else pure (some (d, mmapLen))
  | none => do
      let mmapLen ← mmapLenOfChecked fileSize mmapOffset
      match ← mmapAllocatorDataCreate env a mmapOffset mmapLen with
      | none => pure none
      | some d => do
          dataTreeAdd a d
          pure (some (d, mmapLen))

/-- `mmapPageFileOffset`, its pointer difference checked. -/
def mmapPageFileOffsetChecked (it : Nat) : PbM (Option Nat) := do
  let P ← getPage it
  match P.data with
  | none => pure none
  | some d => do
      let D ← getData d
      let (fileOffset, _) ← mmapFields D
      let distance ← checkedSub P.dataVec.base.offset D.dataVec.base.offset
      pure (some (fileOffset + distance))

/-- `mmapAllocatorPageMapForward`, its subtractions checked. -/
def mmapAllocatorPageMapForwardChecked (env : Env) (a it : Nat) : PbM (Option Nat) := do
  let A ← getMmapAllocator a
  match A.fileFd with
  | none => pure none
  | some _ => do
      let pageOffset ← mmapPageFileOffsetChecked it
      let fileSize ← mmapAllocatorGetFileSize env a
      let fileOffset ← match pageOffset with
        | some off => do
            let pageLen ← pageGetLen it
            pure (off + pageLen)
        | none => pure A.fileHeadOffset
      let mmapOffset := mmapOffsetOf fileOffset
      if fileOffset = fileSize then pure none
      else do
        match ← mmapAllocatorMapBlockChecked env a mmapOffset fileOffset fileSize with
        | none => pure none
        | some (d, mmapLen) => do
            let len ← checkedSub (mmapOffset + mmapLen) fileOffset
            let distance ← checkedSub fileOffset mmapOffset
            mmapAllocatorMapPage env d distance len

/-- The `mmap_offset` from which a page is mapped backward, its subtraction checked. -/
def mmapOffsetBeforeChecked (fileCurrentOffset : Nat) : PbM Nat :=
  if fileCurrentOffset = mmapOffsetOf fileCurrentOffset then
    checkedSub (mmapOffsetOf fileCurrentOffset) mmapBaseSize
  else pure (mmapOffsetOf fileCurrentOffset)

/-- `mmapAllocatorPageMapBackward`, its subtractions checked. -/
def mmapAllocatorPageMapBackwardChecked (env : Env) (a it : Nat) : PbM (Option Nat) := do
  let A ← getMmapAllocator a
  match A.fileFd with
  | none => pure none
  | some _ => do
      let pageOffset ← mmapPageFileOffsetChecked it
      let fileSize ← mmapAllocatorGetFileSize env a
      let fileCurrentOffset := pageOffset.getD fileSize
      if fileCurrentOffset ≤ A.fileHeadOffset then pure none
      else do
        let mmapOffset ← mmapOffsetBeforeChecked fileCurrentOffset
        let fileOffset :=
          if mmapOffset > A.fileHeadOffset then mmapOffset else A.fileHeadOffset
        match ← mmapAllocatorMapBlockChecked env a mmapOffset fileOffset fileSize with
        | none => pure none
        | some (d, _) => do
            let len ← checkedSub fileCurrentOffset fileOffset
            let distance ← checkedSub fileOffset mmapOffset
            mmapAllocatorMapPage env d distance len

theorem mmapAllocatorMapBlockChecked_eq (hle : off ≤ size) :
    mmapAllocatorMapBlockChecked env a off start size = mmapAllocatorMapBlock env a off start size := by
  have hlen : mmapLenOfChecked size off = pure (mmapLenOf size off) := by
    unfold mmapLenOfChecked mmapLenOf
    rw [checkedSub_eq hle, pure_bind]
  unfold mmapAllocatorMapBlockChecked mmapAllocatorMapBlock
  simp only [hlen, pure_bind] <;> rfl

/-- `mmapBufferGetIterator` with the checked functions. -/
def mmapBufferGetIteratorChecked (env : Env) (b a : Nat) : PbM Nat := do
  let it ← trivialBufferGetIterator b
  if trivialBufferIsEndIterator b it then do
    match ← mmapAllocatorPageMapForwardChecked env a it with
    | none => trivialBufferGetEndIterator b
    | some page => do
        if (← trivialBufferInsert env b it 0 page) = 0 then trivialBufferGetEndIterator b
        else trivialBufferGetIterator b
  else pure it

/-- `mmapBufferNextIterator` with the checked functions. -/
def mmapBufferNextIteratorChecked (env : Env) (b a it : Nat) : PbM Nat := do
  let it ← trivialBufferNextIterator it
  if trivialBufferIsEndIterator b it then do
    let it ← trivialBufferPrevIterator it
    match ← mmapAllocatorPageMapForwardChecked env a it with
    | none => trivialBufferGetEndIterator b
    | some page => do
        let endIt ← trivialBufferGetEndIterator b
        if (← trivialBufferInsert env b endIt 0 page) = 0 then trivialBufferGetEndIterator b
        else trivialBufferNextIterator it
  else pure it

/-- `mmapBufferPrevIterator` with the checked functions. -/
def mmapBufferPrevIteratorChecked (env : Env) (b a it : Nat) : PbM Nat := do
  let it ← trivialBufferPrevIterator it
  if trivialBufferIsEndIterator b it then do
    let it ← trivialBufferNextIterator it
    match ← mmapAllocatorPageMapBackwardChecked env a it with
    | none => trivialBufferGetEndIterator b
    | some page => do
        let headIt ← trivialBufferGetIterator b
        if (← trivialBufferInsert env b headIt 0 page) = 0 then trivialBufferGetEndIterator b
        else trivialBufferPrevIterator it
  else pure it

theorem bind_congr_run {α β : Type} {m m' : PbM α} {f : α → PbM β} (hm : m h = m' h) :
    (m >>= f) h = (m' >>= f) h := by
  show (do let (a, s) ← m h; f a s) = (do let (a, s) ← m' h; f a s : Except Fault _)
  rw [hm]

/-! ## Nothing wraps -/

/-- A new mapping reaches over the offset it is made for. -/
theorem lt_mapped (hlt : start < size) :
    start < mmapOffsetOf start + mmapLenOf size (mmapOffsetOf start) := by
  have hfit : Block.Fits ⟨0, 0, 0, mmapOffsetOf start, mmapLenOf size (mmapOffsetOf start), start,
      false⟩ size := Block.fits_mapped hlt rfl
  exact hfit.start

theorem mmapPageFileOffsetChecked_block (hk : h.Shows a file k) :
    mmapPageFileOffsetChecked k.page h = mmapPageFileOffset k.page h := by
  obtain ⟨P, hP, hdata⟩ := Option.bind_eq_some_iff.mp hk.data
  obtain ⟨D, hD, hshape⟩ := Option.map_eq_some_iff.mp hk.shape
  have hbase : D.dataVec.base.offset = 0 := congrArg (fun s => s.dataVec.base.offset) hshape
  unfold mmapPageFileOffsetChecked mmapPageFileOffset
  refine (bind_run (getPage_run hP)).trans (Eq.trans ?_ (bind_run (getPage_run hP)).symm)
  rw [hdata]
  refine (bind_run (getData_run hD)).trans (Eq.trans ?_ (bind_run (getData_run hD)).symm)
  rw [hbase, checkedSub_eq (Nat.zero_le _)]
  simp only [pure_bind]

theorem mmapPageFileOffsetChecked_end (hb : h.dataOf b = none) :
    mmapPageFileOffsetChecked b h = mmapPageFileOffset b h := by
  unfold mmapPageFileOffsetChecked mmapPageFileOffset
  cases hP : h.pages b with
  | none =>
      have hfault : getPage b h = .error .dangling := by simp [getPage, hP]
      rw [bind_fails hfault, bind_fails hfault]
  | some P =>
      have hdata : P.data = none := by rwa [Heap.dataOf_eq hP] at hb
      refine (bind_run (getPage_run hP)).trans (Eq.trans ?_ (bind_run (getPage_run hP)).symm)
      rw [hdata]

namespace Maps

variable (m : Maps h R b a fd head ks)

include m

theorem offsetChecked_last : mmapPageFileOffsetChecked ((R b).getLastD b) h
    = mmapPageFileOffset ((R b).getLastD b) h := by
  rcases List.eq_nil_or_concat' ks with hnil | ⟨l, k, hl⟩
  · have hend : (R b).getLastD b = b := by rw [m.ring, hnil]; rfl
    rw [hend]
    exact mmapPageFileOffsetChecked_end (m.inv.core.views.sentinel m.opened.isSome).1
  · have hlast : (R b).getLastD b = k.page := by
      rw [m.ring, hl, List.map_append]
      exact getLastD_concat b _ _
    rw [hlast]
    exact mmapPageFileOffsetChecked_block (m.shows k (by simp [hl]))

theorem offsetChecked_first : mmapPageFileOffsetChecked ((R b).headD b) h
    = mmapPageFileOffset ((R b).headD b) h := by
  cases hks : ks with
  | nil =>
      have hend : (R b).headD b = b := by rw [m.ring, hks]; rfl
      rw [hend]
      exact mmapPageFileOffsetChecked_end (m.inv.core.views.sentinel m.opened.isSome).1
  | cons k l =>
      have hfirst : (R b).headD b = k.page := by rw [m.ring, hks]; rfl
      rw [hfirst]
      exact mmapPageFileOffsetChecked_block (m.shows k (by simp [hks]))

/-- **Forward** the subtractions stay above zero: the block that is found or mapped reaches over
the end of the window. -/
theorem mapForwardChecked (hs : env.Succeeds) (hw : ks ≠ [] → fd.writable = true) :
    mmapAllocatorPageMapForwardChecked env a ((R b).getLastD b) h
      = mmapAllocatorPageMapForward env a ((R b).getLastD b) h := by
  obtain ⟨A, hA, hfd, hhead⟩ := m.opened.allocator
  have hoff : mmapOffsetOf (stopOf ks head) ≤ stopOf ks head := Nat.div_mul_le_self _ _
  have hle : stopOf ks head ≤ (h.files fd.file).length := m.stretch.stop_le_size m.opened.head
  unfold mmapAllocatorPageMapForwardChecked mmapAllocatorPageMapForward
  refine (bind_run (getMmapAllocator_run hA)).trans
    (Eq.trans ?_ (bind_run (getMmapAllocator_run hA)).symm)
  simp only [hfd, hhead]
  refine (bind_congr_run m.offsetChecked_last).trans ?_
  refine (m.forwardOffset_run hs.system _).trans (Eq.trans ?_ (m.forwardOffset_run hs.system _).symm)
  by_cases he : stopOf ks head = (h.files fd.file).length
  · rw [if_pos he, if_pos he]
  · rw [if_neg he, if_neg he, mmapAllocatorMapBlockChecked_eq (Nat.le_trans hoff hle)]
    by_cases hwr : fd.writable = true
    · have hlt : stopOf ks head < (h.files fd.file).length := Nat.lt_of_le_of_ne hle he
      obtain ⟨h₁, old, hlookup, -, -⟩ := m.granted.lookup_forward hs hwr hA hfd hlt
      have hstop := Nat.le_of_lt (lt_mapped hlt)
      refine (bind_run hlookup).trans (Eq.trans ?_ (bind_run hlookup).symm)
      show (do
          let len ← checkedSub (mmapOffsetOf (stopOf ks head)
            + mmapLenOf (h.files fd.file).length (mmapOffsetOf (stopOf ks head))) (stopOf ks head)
          let distance ← checkedSub (stopOf ks head) (mmapOffsetOf (stopOf ks head))
          mmapAllocatorMapPage env (h.granted.next + 1) distance len : PbM (Option Nat)) h₁ = _
      rw [checkedSub_eq hstop, checkedSub_eq hoff]
      rfl
    · -- nothing is mapped of a file that is not open for writing
      have hnil : ks = [] := by
        by_contra hne
        exact hwr (hw hne)
      subst hnil
      have hrefused : mmapAllocatorMapBlock env a _ _ _ _ = .ok (none, _) :=
        m.granted.lookup_refused (Bool.of_not_eq_true hwr)
          (mmapOffsetOf (stopOf [] head)) (stopOf [] head) (h.files fd.file).length
      refine (bind_run hrefused).trans (Eq.trans ?_ (bind_run hrefused).symm)
      rfl

/-- **Backward** they do as well: the block before the window begins before it, and the head is
not behind. -/
theorem mapBackwardChecked (hs : env.Succeeds) :
    mmapAllocatorPageMapBackwardChecked env a ((R b).headD b) h
      = mmapAllocatorPageMapBackward env a ((R b).headD b) h := by
  obtain ⟨A, hA, hfd, hhead⟩ := m.opened.allocator
  have hle := m.first_le
  unfold mmapAllocatorPageMapBackwardChecked mmapAllocatorPageMapBackward
  refine (bind_run (getMmapAllocator_run hA)).trans
    (Eq.trans ?_ (bind_run (getMmapAllocator_run hA)).symm)
  simp only [hfd, hhead]
  refine (bind_congr_run m.offsetChecked_first).trans ?_
  refine (m.backwardOffset_run hs.system _).trans
    (Eq.trans ?_ (m.backwardOffset_run hs.system _).symm)
  obtain ⟨cur, hcur⟩ : ∃ cur, cur = (ks.head?.map Block.start).getD (h.files fd.file).length :=
    ⟨_, rfl⟩
  rw [← hcur] at hle ⊢
  by_cases he : cur ≤ head
  · rw [if_pos he, if_pos he]
  · rw [if_neg he, if_neg he]
    -- the block before `cur` begins at `off`
    obtain ⟨off, hoff⟩ : ∃ off, off = if cur = mmapOffsetOf cur
        then wrapSub (mmapOffsetOf cur) mmapBaseSize else mmapOffsetOf cur := ⟨_, rfl⟩
    have hchecked : mmapOffsetBeforeChecked cur = pure off := by
      rw [hoff, mmapOffsetBeforeChecked]
      split
      · refine checkedSub_eq ?_
        simp only [mmapOffsetOf, mmapBaseSize] at *
        omega
      · rfl
    have hbefore : off < cur := by
      rw [hoff]
      split
      · rw [wrapSub_of_le] <;> simp only [mmapOffsetOf, mmapBaseSize] at * <;> omega
      · simp only [mmapOffsetOf, mmapBaseSize] at *
        omega
    rw [hchecked, ← hoff, pure_bind, mmapAllocatorMapBlockChecked_eq (by omega)]
    refine congrFun (bind_congr (m := PbM) fun r => ?_) _
    cases r with
    | none => rfl
    | some q =>
        obtain ⟨d, mmapLen⟩ := q
        dsimp only
        rw [checkedSub_eq (by split <;> omega), checkedSub_eq (by split <;> omega)]
        rfl

end Maps

namespace Window

variable (w : Window h b a fd head ks) (hs : env.Succeeds)

include w hs

theorem nextChecked (hit : h.IsPlaceOf b it) :
    mmapBufferNextIteratorChecked env b a it h = mmapBufferNextIterator env b a it h := by
  obtain ⟨R, m⟩ := w.maps
  have hl := m.inv.core.links
  have hb := m.opened.isSome
  obtain ⟨l₁, l₂, hR, rfl⟩ : ∃ l₁ l₂, R b = l₁ ++ l₂ ∧ it = l₁.getLastD b := by
    rcases hit with rfl | hmem
    · exact ⟨[], R it, rfl, rfl⟩
    · rw [hl.pagesOf hb] at hmem
      obtain ⟨l₁, l₂, hR⟩ := List.append_of_mem hmem
      exact ⟨l₁ ++ [it], l₂, by simp [hR], (getLastD_concat b _ _).symm⟩
  have hnext := nextIterator_cut hl hb hR
  unfold mmapBufferNextIteratorChecked mmapBufferNextIterator
  refine (bind_run hnext).trans (Eq.trans ?_ (bind_run hnext).symm)
  by_cases hend : trivialBufferIsEndIterator b (l₂.headD b) = true
  · rw [if_pos hend, if_pos hend]
    have hhead : l₂.headD b = b := of_decide_eq_true hend
    have hprev : trivialBufferPrevIterator b h = .ok ((R b).getLastD b, h) :=
      (@prevIterator_run _ _ _ _ []) hl hb (List.append_nil _).symm
    rw [hhead]
    refine (bind_run hprev).trans (Eq.trans ?_ (bind_run hprev).symm)
    exact bind_congr_run (m.mapForwardChecked hs w.writable)
  · rw [if_neg hend, if_neg hend]

theorem prevChecked (hit : h.IsPlaceOf b it) :
    mmapBufferPrevIteratorChecked env b a it h = mmapBufferPrevIterator env b a it h := by
  obtain ⟨R, m⟩ := w.maps
  have hl := m.inv.core.links
  have hb := m.opened.isSome
  obtain ⟨l₁, l₂, hR, rfl⟩ : ∃ l₁ l₂, R b = l₁ ++ l₂ ∧ it = l₂.headD b := by
    rcases hit with rfl | hmem
    · exact ⟨R it, [], (List.append_nil _).symm, rfl⟩
    · rw [hl.pagesOf hb] at hmem
      obtain ⟨l₁, l₂, hR⟩ := List.append_of_mem hmem
      exact ⟨l₁, it :: l₂, hR, rfl⟩
  have hprev := prevIterator_run hl hb hR
  unfold mmapBufferPrevIteratorChecked mmapBufferPrevIterator
  refine (bind_run hprev).trans (Eq.trans ?_ (bind_run hprev).symm)
  by_cases hend : trivialBufferIsEndIterator b (l₁.getLastD b) = true
  · rw [if_pos hend, if_pos hend]
    have hlast : l₁.getLastD b = b := of_decide_eq_true hend
    have hnext : trivialBufferNextIterator b h = .ok ((R b).headD b, h) :=
      (@nextIterator_cut _ _ _ []) hl hb rfl
    rw [hlast]
    refine (bind_run hnext).trans (Eq.trans ?_ (bind_run hnext).symm)
    exact bind_congr_run (m.mapBackwardChecked hs)
  · rw [if_neg hend, if_neg hend]

theorem getChecked :
    mmapBufferGetIteratorChecked env b a h = mmapBufferGetIterator env b a h := by
  obtain ⟨R, m⟩ := w.maps
  have hl := m.inv.core.links
  have hb := m.opened.isSome
  have hget := getIterator_run hl hb
  unfold mmapBufferGetIteratorChecked mmapBufferGetIterator
  refine (bind_run hget).trans (Eq.trans ?_ (bind_run hget).symm)
  by_cases hend : trivialBufferIsEndIterator b ((R b).headD b) = true
  · rw [if_pos hend, if_pos hend]
    have hhead : (R b).headD b = b := of_decide_eq_true hend
    have hlast : (R b).getLastD b = b := by
      rw [(hl.headD_eq_self_iff hb).mp hhead]
      rfl
    have hmap := m.mapForwardChecked hs w.writable
    rw [hlast] at hmap
    rw [hhead]
    exact bind_congr_run hmap
  · rw [if_neg hend, if_neg hend]

end Window

/-! ## Runs -/

/-- The checked program returns, with what the other one returns. -/
def RunsAs (m m' : PbM Nat) (h : Heap) : Prop := ∃ q, m h = .ok q ∧ m' h = .ok q

/-- Whatever page an iterator steps from, no subtraction of the mapping functions wraps. -/
structure NeverWraps (env : Env) (b a : Nat) (h : Heap) : Prop where
  get : RunsAs (mmapBufferGetIteratorChecked env b a) (bufferGetIterator env b) h
  next : ∀ it, h.IsPlaceOf b it →
    RunsAs (mmapBufferNextIteratorChecked env b a it) (bufferNextIterator env b it) h
  prev : ∀ it, h.IsPlaceOf b it →
    RunsAs (mmapBufferPrevIteratorChecked env b a it) (bufferPrevIterator env b it) h

/-- The calls that leave the file as long as it is or make it longer, and keep the buffer. -/
def MmapOp.SparesFile : MmapOp → Prop
  | .trim _ | .destroy => False
  | _ => True

theorem Window.neverWraps (w : Window h b a fd head ks) (hs : env.Succeeds) :
    NeverWraps env b a h := by
  have hplace : ∀ {it}, h.IsPlaceOf b it → it = b ∨ ∃ k ∈ ks, it = k.page := by
    intro it hit
    obtain ⟨R, m⟩ := w.maps
    rcases hit with rfl | hmem
    · exact .inl rfl
    · rw [m.inv.core.links.pagesOf m.opened.isSome, m.ring] at hmem
      obtain ⟨k, hk, rfl⟩ := List.mem_map.mp hmem
      exact .inr ⟨k, hk, rfl⟩
  refine ⟨?_, fun it hit => ?_, fun it hit => ?_⟩
  · obtain ⟨it, h', hrun, -⟩ := w.getIterator hs
    refine ⟨(it, h'), ?_, hrun⟩
    rw [w.getChecked hs, ← w.bufferGetIterator_eq]
    exact hrun
  · obtain ⟨it', h', hrun⟩ : ∃ it' h', bufferNextIterator env b it h = .ok (it', h') := by
      rcases hplace hit with rfl | ⟨k, hk, rfl⟩
      · obtain ⟨it', h', hrun, -⟩ := w.nextIterator_end hs
        exact ⟨it', h', hrun⟩
      · obtain ⟨it', h', hrun, -⟩ := w.nextIterator hs hk
        exact ⟨it', h', hrun⟩
    refine ⟨(it', h'), ?_, hrun⟩
    rw [w.nextChecked hs hit, ← w.bufferNextIterator_eq]
    exact hrun
  · obtain ⟨it', h', hrun⟩ : ∃ it' h', bufferPrevIterator env b it h = .ok (it', h') := by
      rcases hplace hit with rfl | ⟨k, hk, rfl⟩
      · obtain ⟨it', h', hrun, -⟩ := w.prevIterator_end hs
        exact ⟨it', h', hrun⟩
      · obtain ⟨it', h', hrun, -⟩ := w.prevIterator hs hk
        exact ⟨it', h', hrun⟩
    refine ⟨(it', h'), ?_, hrun⟩
    rw [w.prevChecked hs hit, ← w.bufferPrevIterator_eq]
    exact hrun

end Pb
