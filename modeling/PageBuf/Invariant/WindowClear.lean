import PageBuf.Invariant.PageMoves
import PageBuf.Invariant.WindowIterators

/-!
# WindowClear — giving up the window

`pb_trivial_pure_buffer_clear` unlinks the pages from the first on. Each was the
only user of its data, so the data goes with it, and with the data a reference
to the allocator. The counter of these has 16 bits: with 65536 pages or more it
comes to zero too early, and the next page faults.
-/

namespace Pb

open StateRun Function Ring RefCount

variable {env : Env} {h h' h'' : Heap} {R : Nat → List Nat} {Z X T : List Nat}
  {a b d m n head off next : Nat} {fd : Fd} {k : Block} {ks : List Block} {A : MmapAllocator}
  {B : Buffer} {D : Data} {o : Option MmapAllocator} {obsolete : Bool}

/-! ## One page -/

/-- `pb_data_put` of the last user of mapped data. -/
theorem dataPut_mapped (hD : h.datas d = some D) (hone : D.useCount = 1)
    (hop : D.operations = .mmap a off obsolete) (hbase : D.dataVec.base = ⟨.mapped m, 0⟩)
    (hA : h.mmapAllocators a = some A) (hin : obsolete = false → d ∈ A.dataTree) :
    Yields (dataPut d) h (fun _ h' => Unmapped h h' d m a (A.without d obsolete)) := by
  have hzero : u16Dec D.useCount = 0 := by rw [hone]; rfl
  unfold dataPut
  refine Yields.step (getData_run hD) (Yields.step (modify_run _) ?_)
  simp only [hzero, ne_eq, not_true_eq_false, if_false]
  unfold dataRelease
  simp only [hop]
  refine (mmapAllocatorDataDestroy_spec (h := h.setData d (some { D with
    useCount := 0, operations := .mmap a off obsolete })) (update_self _ _ _) hA hbase hin).mono
    fun _ h' u => ?_
  exact { u with datas := by rw [u.datas]; exact update_idem _ _ _ }

/-- The page of a block is gone, and its data, the mapping of which nothing else used. -/
structure PageGone (h h' : Heap) (b a : Nat) (k : Block) (next : Nat) (o : Option MmapAllocator) :
    Prop where
  nextOf : h'.nextOf = update (update h.nextOf b (some next)) k.page none
  prevOf : h'.prevOf = update (update h.prevOf next (some b)) k.page none
  dataOf : h'.dataOf = update h.dataOf k.page none
  lenOf : ∀ {p}, p ≠ k.page → h'.lenOf p = h.lenOf p
  live : ∀ p, (h'.pages p).isSome ↔ p ≠ k.page ∧ (h.pages p).isSome
  datas : h'.datas = update h.datas k.data none
  mappings : h'.mappings = update h.mappings k.mapping none
  mmapAllocators : h'.mmapAllocators = update h.mmapAllocators a o
  buffers : h'.buffers = h.buffers
  blocks : h'.blocks = h.blocks
  next : h'.next = h.next
  files : h'.files = h.files

/-- Taking the first page out of the ring. -/
theorem unlinkPage_mapped {l : List Nat} (hring : IsRing h.nextOf h.prevOf b (k.page :: l))
    (hdata : h.dataOf k.page = some k.data) (hD : h.datas k.data = some D) (hone : D.useCount = 1)
    (hop : D.operations = .mmap a off obsolete)
    (hbase : D.dataVec.base = ⟨.mapped k.mapping, 0⟩) (hA : h.mmapAllocators a = some A)
    (hin : obsolete = false → k.data ∈ A.dataTree) :
    Yields (unlinkPage k.page) h (fun _ h' => PageGone h h' b a k (l.headD b)
      (A.without k.data obsolete)) := by
  have hlive : ∀ {p}, p ∈ b :: k.page :: l → (h.pages p).isSome := by
    intro p hp
    by_contra hn
    have hnext := hring.next_isSome hp
    rw [Heap.nextOf, Option.not_isSome_iff_eq_none.mp hn] at hnext
    cases hnext
  obtain ⟨P, hP⟩ := Option.isSome_iff_exists.mp (hlive (p := k.page) (by simp))
  have hprev : P.prev = some b := by
    rw [← Heap.prevOf_eq hP]
    exact (@IsRing.prev_mem _ _ _ _ _ []) hring
  have hnext : P.next = some (l.headD b) := by
    rw [← Heap.nextOf_eq hP]
    exact (@IsRing.next_mem _ _ _ _ _ []) hring
  have hhead : l.headD b ∈ b :: k.page :: l :=
    List.cons_subset_cons b (List.subset_cons_self _ _) (headD_mem b _)
  unfold unlinkPage
  refine Yields.step (getPage_run hP) (unlink_run hP hprev hnext (hlive (by simp)) (hlive hhead) ?_)
  intro h₁ e hv hn hp
  have hdata₁ : h₁.dataOf k.page = some k.data := by rw [e.dataOf, hdata]
  obtain ⟨P₁, hP₁, hd₁⟩ := Option.bind_eq_some_iff.mp hdata₁
  unfold pageDestroy
  refine Yields.step (getPage_run hP₁) (Yields.step (deref_run hd₁) ?_)
  refine Yields.bind (dataPut_mapped (h := h₁) (by rw [e.rest]; exact hD) hone hop hbase
    (by rw [e.rest]; exact hA) hin) ?_
  intro _ h₂ u
  have hP₂ : h₂.pages k.page = some P₁ := by rw [u.pages, hP₁]
  refine Yields.intro (freePage_run (by rw [hP₂]; rfl)) ?_
  have hvec : ∀ {p}, p ≠ k.page → (h₂.setPage k.page none).vecOf p = h.vecOf p := by
    intro p hp
    rw [Heap.vecOf_setPage, update_of_ne hp, Heap.vecOf_congr u.pages, hv]
  exact
    { nextOf := by
        rw [Heap.nextOf_setPage, Heap.nextOf_congr u.pages, hn]
        exact update_idem _ _ _
      prevOf := by
        rw [Heap.prevOf_setPage, Heap.prevOf_congr u.pages, hp]
        exact update_idem _ _ _
      dataOf := by
        rw [Heap.dataOf_setPage, Heap.dataOf_congr u.pages, e.dataOf]
        rfl
      lenOf := fun hp => by rw [Heap.lenOf, Heap.lenOf, hvec hp]
      live := fun p => by
        rcases eq_or_ne p k.page with rfl | hne
        · simp [Heap.setPage]
        · rw [← e.live p, ← u.pages]
          simp [Heap.setPage, hne]
      datas := by
        show h₂.datas = _
        rw [u.datas, e.rest]
      mappings := by
        show h₂.mappings = _
        rw [u.mappings, e.rest]
      mmapAllocators := by
        show h₂.mmapAllocators = _
        rw [u.mmapAllocators, e.rest]
      buffers := by
        show h₂.buffers = _
        rw [u.buffers, e.rest]
      blocks := by
        show h₂.blocks = _
        rw [u.blocks, e.rest]
      next := by
        show h₂.next = _
        rw [u.next, e.rest]
      files := by
        show h₂.files = _
        rw [u.files, e.rest] }

/-! ## The ring on its way to nothing -/

/-- What giving up pages leaves alone. -/
structure Emptied (h h' : Heap) (a : Nat) : Prop where
  buffers : h'.buffers = h.buffers
  blocks : h'.blocks = h.blocks
  next : h'.next = h.next
  files : h'.files = h.files
  mapping : ∀ {m}, (h'.mappings m).isSome → (h.mappings m).isSome
  allocator : ∀ {a'}, a' ≠ a → h'.mmapAllocators a' = h.mmapAllocators a'
  data : ∀ {d}, (h'.datas d).isSome → (h.datas d).isSome

theorem Emptied.refl (h : Heap) (a : Nat) : Emptied h h a :=
  ⟨rfl, rfl, rfl, rfl, fun hm => hm, fun _ => rfl, fun hd => hd⟩

theorem Emptied.trans (s : Emptied h h' a) (s' : Emptied h' h'' a) : Emptied h h'' a where
  buffers := s'.buffers.trans s.buffers
  blocks := s'.blocks.trans s.blocks
  next := s'.next.trans s.next
  files := s'.files.trans s.files
  mapping := fun hm => s.mapping (s'.mapping hm)
  allocator := fun hne => (s'.allocator hne).trans (s.allocator hne)
  data := fun hd => s.data (s'.data hd)

theorem PageGone.emptied (g : PageGone h h' b a k next o) : Emptied h h' a where
  buffers := g.buffers
  blocks := g.blocks
  next := g.next
  files := g.files
  mapping := fun {m} hm => by
    rw [g.mappings] at hm
    by_cases hne : m = k.mapping
    · simp [hne] at hm
    · rwa [update_of_ne hne] at hm
  allocator := fun hne => by rw [g.mmapAllocators, update_of_ne hne]
  data := fun {d} hd => by
    rw [g.datas] at hd
    by_cases hne : d = k.data
    · simp [hne] at hd
    · rwa [update_of_ne hne] at hd

/-- The page of the block refers to its data, and nothing else does. -/
structure Heap.Owns (h : Heap) (a : Nat) (k : Block) : Prop where
  data : h.dataOf k.page = some k.data
  owned : ∃ D, h.datas k.data = some D ∧ D.useCount = 1 ∧
    D.dataVec.base = ⟨.mapped k.mapping, 0⟩ ∧ D.operations = .mmap a k.offset k.obsolete

/-- The pages in the ring of the mmap buffer `b`, and all the pages there are, are those of
the blocks `ks` and behind them the pages `Z`, the data of which are gone. -/
structure Ruins (h : Heap) (b a : Nat) (ks : List Block) (Z : List Nat) : Prop where
  ring : IsRing h.nextOf h.prevOf b (ks.map Block.page ++ Z)
  pages : ∀ p, (h.pages p).isSome ↔ p = b ∨ p ∈ ks.map Block.page ++ Z
  owns : ∀ k ∈ ks, h.Owns a k
  dead : ∀ z ∈ Z, ∃ d, h.dataOf z = some d ∧ h.datas d = none
  once : (ks.map Block.data).Nodup

/-- Such a ring with its allocator, which counts `n` users. The data of the blocks and the
data `X` are all the data there is; of the tree the entries `T` are stale. -/
structure Teardown (h : Heap) (b a : Nat) (fd : Fd) (head : Nat) (ks : List Block)
    (Z X T : List Nat) (n : Nat) : Prop extends Ruins h b a ks Z where
  sentinel : h.dataOf b = none ∧ h.lenOf b = 0
  datas : ∀ d, (h.datas d).isSome → d ∈ ks.map Block.data ∨ d ∈ X
  stale : ∀ k ∈ ks, k.obsolete = false → k.data ∉ T
  allocator : ∃ A, h.mmapAllocators a = some A ∧ A.fileFd = some fd ∧ A.fileHeadOffset = head ∧
    A.useCount = n % 65536 ∧ A.dataTree.Nodup ∧
    ∀ d, d ∈ A.dataTree ↔ (∃ k ∈ ks, k.data = d ∧ k.obsolete = false) ∨ d ∈ T

theorem PageGone.owns (g : PageGone h h' b a k next o) {k' : Block} (hk : h.Owns a k')
    (hpage : k'.page ≠ k.page) (hdata : k'.data ≠ k.data) : h'.Owns a k' where
  data := by rw [g.dataOf, update_of_ne hpage, hk.data]
  owned := by
    rw [g.datas, update_of_ne hdata]
    exact hk.owned

/-- **One page less.** -/
theorem PageGone.ruins (g : PageGone h h' b a k ((ks.map Block.page ++ Z).headD b) o)
    (u : Ruins h b a (k :: ks) Z) : Ruins h' b a ks Z := by
  have hring : IsRing h.nextOf h.prevOf b ([] ++ k.page :: (ks.map Block.page ++ Z)) := u.ring
  have hnodup := hring.nodup
  simp only [List.nil_append, List.nodup_cons, List.mem_cons, not_or] at hnodup
  obtain ⟨⟨hbk, -⟩, hkl, -⟩ := hnodup
  have hin : ∀ y ∈ b :: ([] ++ (ks.map Block.page ++ Z)), y ≠ k.page := by
    intro y hy he
    rcases List.mem_cons.mp hy with rfl | hy
    · exact hbk he
    · exact hkl (he ▸ hy)
  have hdatas := u.once
  rw [List.map_cons, List.nodup_cons] at hdatas
  refine ⟨?_, ?_, ?_, ?_, hdatas.2⟩
  · -- the ring closes behind the page
    have hhead : (ks.map Block.page ++ Z).headD b ∈ b :: ([] ++ (ks.map Block.page ++ Z)) :=
      headD_mem b _
    refine (@IsRing.remove _ _ _ _ _ _ _ [] (ks.map Block.page ++ Z)) ?_ ?_ hring ?_ ?_
    · intro y hy hne
      rw [g.nextOf, update_of_ne (hin y hy)]
      exact update_of_ne hne _ _
    · intro y hy hne
      rw [g.prevOf, update_of_ne (hin y hy)]
      exact update_of_ne hne _ _
    · show h'.nextOf b = _
      rw [g.nextOf, update_of_ne (hin _ List.mem_cons_self)]
      exact update_self _ _ _
    · rw [g.prevOf, update_of_ne (hin _ hhead)]
      exact update_self _ _ _
  · intro p
    rw [g.live, u.pages]
    constructor
    · rintro ⟨hne, hp | hp⟩
      · exact .inl hp
      · exact .inr ((List.mem_cons.mp hp).resolve_left hne)
    · rintro (rfl | hp)
      · exact ⟨hbk, .inl rfl⟩
      · exact ⟨fun he => hkl (he ▸ hp), .inr (List.mem_cons_of_mem k.page hp)⟩
  · intro k' hk'
    refine g.owns (u.owns k' (List.mem_cons_of_mem k hk')) (fun he => hkl ?_) fun he => hdatas.1 ?_
    · rw [← he]
      exact List.mem_append_left Z (List.mem_map_of_mem hk')
    · rw [← he]
      exact List.mem_map_of_mem hk'
  · intro z hz
    obtain ⟨d, hd, hgone⟩ := u.dead z hz
    refine ⟨d, ?_, ?_⟩
    · have hzk : z ≠ k.page := fun he => hkl (by rw [← he]; exact List.mem_append_right _ hz)
      rw [g.dataOf, update_of_ne hzk, hd]
    · rw [g.datas]
      by_cases hdk : d = k.data
      · rw [hdk, update_self]
      · rw [update_of_ne hdk, hgone]

namespace Teardown

variable (t : Teardown h b a fd head (k :: ks) Z X T n)

include t

theorem unlink_first : ∃ A, h.mmapAllocators a = some A ∧ A.useCount = n % 65536 ∧
    Yields (unlinkPage k.page) h (fun _ h' => PageGone h h' b a k
      ((ks.map Block.page ++ Z).headD b) (A.without k.data k.obsolete)) := by
  obtain ⟨A, hA, -, -, huse, -, htree⟩ := t.allocator
  obtain ⟨hdata, D, hD, hone, hbase, hop⟩ := t.owns k List.mem_cons_self
  refine ⟨A, hA, huse, unlinkPage_mapped t.ring hdata hD hone hop hbase hA fun hlive => ?_⟩
  exact (htree k.data).mpr (.inl ⟨k, List.mem_cons_self, rfl, hlive⟩)

/-- What is left when the counter does not come to zero. -/
theorem unlink (hn : 0 < n) (hlast : n % 65536 ≠ 1) :
    Yields (unlinkPage k.page) h (fun _ h' =>
      Teardown h' b a fd head ks Z X T (n - 1) ∧ Emptied h h' a) := by
  obtain ⟨A, hA, huse, hrun⟩ := t.unlink_first
  refine hrun.mono fun _ h' g => ⟨?_, g.emptied⟩
  have hdec : u16Dec A.useCount = (n - 1) % 65536 := by rw [huse, u16Dec_mod hn]
  have hkeep : u16Dec A.useCount ≠ 0 := by omega
  have hbk : b ≠ k.page := by
    have hnodup := t.ring.nodup
    simp only [List.map_cons, List.cons_append, List.nodup_cons, List.mem_cons, not_or] at hnodup
    exact hnodup.1.1
  have hdatas := t.once
  rw [List.map_cons, List.nodup_cons] at hdatas
  refine ⟨g.ruins t.toRuins, ?_, ?_, ?_, ?_⟩
  · rw [g.dataOf, update_of_ne hbk, g.lenOf hbk]
    exact t.sentinel
  · intro d hd
    rw [g.datas] at hd
    by_cases hne : d = k.data
    · simp [hne] at hd
    · rw [update_of_ne hne] at hd
      simpa [hne] using t.datas d hd
  · exact fun k' hk' => t.stale k' (List.mem_cons_of_mem k hk')
  · obtain ⟨A', hA', hfd, hhead, -, hnd, htree⟩ := t.allocator
    rw [hA] at hA'
    cases hA'
    refine ⟨{ A with
      useCount := u16Dec A.useCount
      dataTree := if k.obsolete then A.dataTree else A.dataTree.erase k.data }, ?_, hfd, hhead,
      hdec, ?_, ?_⟩
    · rw [g.mmapAllocators, update_self, MmapAllocator.without, if_neg hkeep]
    · dsimp only
      split
      · exact hnd
      · exact hnd.erase _
    · intro d
      have hstale := t.stale k List.mem_cons_self
      dsimp only
      cases hobs : k.obsolete with
      | true =>
          rw [if_pos rfl, htree]
          constructor
          · rintro (⟨k', hk', hd, hlive⟩ | hd)
            · rcases List.mem_cons.mp hk' with rfl | hk'
              · rw [hobs] at hlive
                cases hlive
              · exact .inl ⟨k', hk', hd, hlive⟩
            · exact .inr hd
          · rintro (⟨k', hk', hd, hlive⟩ | hd)
            · exact .inl ⟨k', List.mem_cons_of_mem k hk', hd, hlive⟩
            · exact .inr hd
      | false =>
          rw [if_neg (by simp), hnd.mem_erase_iff, htree]
          constructor
          · rintro ⟨hne, ⟨k', hk', hd, hlive⟩ | hd⟩
            · rcases List.mem_cons.mp hk' with rfl | hk'
              · exact absurd hd.symm hne
              · exact .inl ⟨k', hk', hd, hlive⟩
            · exact .inr hd
          · rintro (⟨k', hk', rfl, hlive⟩ | hd)
            · refine ⟨fun he => hdatas.1 ?_, .inl ⟨k', List.mem_cons_of_mem k hk', rfl, hlive⟩⟩
              rw [← he]
              exact List.mem_map_of_mem hk'
            · exact ⟨fun he => hstale hobs (he ▸ hd), .inr hd⟩

end Teardown

/-! ## Without the allocator -/

theorem returns_modifyLinks {p : Nat} {f : Page → Page} (hf : ∀ P, (f P).data = P.data) :
    Returns (modifyPage p f) h (fun _ h' => h'.dataOf = h.dataOf ∧ h'.datas = h.datas ∧
      h'.mmapAllocators = h.mmapAllocators) := by
  unfold modifyPage
  refine returns_getPage fun P hP => Returns.of_run (modify_run _) ⟨?_, rfl, rfl⟩
  rw [Heap.dataOf_setPage, Option.bind_some, hf, ← Heap.dataOf_eq hP, update_eq_self]

/-- The allocator that mapped data is to be given back to has to be there. -/
theorem dataPut_torn (hD : h.datas d = some D) (hone : D.useCount = 1)
    (hop : D.operations = .mmap a off obsolete) (hA : h.mmapAllocators a = none) :
    Returns (dataPut d) h (fun _ _ => False) := by
  have hzero : u16Dec D.useCount = 0 := by rw [hone]; rfl
  have hnone : ∀ {g : Heap} {f : MmapAllocator → PbM Unit}, g.mmapAllocators = h.mmapAllocators →
      Returns (getMmapAllocator a >>= f) g (fun _ _ => False) := by
    intro g f hg
    refine returns_getMmapAllocator fun A hA' => ?_
    rw [hg, hA] at hA'
    cases hA'
  unfold dataPut
  refine Returns.step (getData_run hD) (Returns.step (modify_run _) ?_)
  simp only [hzero, ne_eq, not_true_eq_false, if_false]
  unfold dataRelease
  simp only [hop]
  unfold mmapAllocatorDataDestroy
  cases obsolete with
  | false =>
      simp only [Bool.false_eq_true, if_false]
      exact Returns.bind (hnone rfl) (fun _ _ hf => hf.elim)
  | true =>
      have hunmap : ∀ {g : Heap} {base : Ptr}, Returns (munmap base) g
          (fun _ g' => g'.mmapAllocators = g.mmapAllocators) := by
        intro g base r g' hr
        unfold munmap at hr
        split at hr <;> cases hr <;> rfl
      have hfree : ∀ {g : Heap}, Returns (freeData d) g
          (fun _ g' => g'.mmapAllocators = g.mmapAllocators) := by
        intro g r g' hr
        unfold freeData at hr
        split at hr <;> cases hr
        rfl
      refine returns_getData fun D' _ => Returns.bind hunmap fun _ g hg => ?_
      exact Returns.bind hfree fun _ g' hg' => hnone (hg'.trans hg)

/-- A page whose data cannot be put: it is gone, or the allocator is to which it is to be
given back. -/
def Heap.Stuck (h : Heap) (a p : Nat) : Prop :=
  ∃ d, h.dataOf p = some d ∧ (h.datas d = none ∨ ∃ D off obsolete, h.datas d = some D ∧
    D.useCount = 1 ∧ D.operations = .mmap a off obsolete ∧ h.mmapAllocators a = none)

theorem Heap.Owns.stuck (ho : h.Owns a k) (hA : h.mmapAllocators a = none) :
    h.Stuck a k.page := by
  obtain ⟨D, hD, hone, -, hop⟩ := ho.owned
  exact ⟨k.data, ho.data, .inr ⟨D, _, _, hD, hone, hop, hA⟩⟩

theorem unlinkPage_stuck {p : Nat} (hst : h.Stuck a p) :
    Returns (unlinkPage p) h (fun _ _ => False) := by
  obtain ⟨d, hd, hput⟩ := hst
  unfold unlinkPage
  refine returns_getPage fun P hP => returns_deref fun nxt _ => returns_deref fun prv _ => ?_
  refine Returns.bind (returns_modifyLinks fun _ => rfl) fun _ h₁ s₁ => ?_
  refine Returns.bind (returns_modifyLinks fun _ => rfl) fun _ h₂ s₂ => ?_
  refine Returns.bind (returns_modifyLinks fun _ => rfl) fun _ h₃ s₃ => ?_
  have hdata : h₃.dataOf p = some d := by
    rw [s₃.1, s₂.1, s₁.1]
    exact hd
  have hdatas : h₃.datas = h.datas := s₃.2.1.trans (s₂.2.1.trans s₁.2.1)
  have hallocs : h₃.mmapAllocators = h.mmapAllocators := s₃.2.2.trans (s₂.2.2.trans s₁.2.2)
  unfold pageDestroy
  refine returns_getPage fun P₃ hP₃ => returns_deref fun d' hd' => ?_
  have hdk : d' = d := by
    rw [Heap.dataOf_eq hP₃, hd'] at hdata
    exact Option.some.inj hdata
  subst hdk
  refine Returns.bind (P := fun _ _ => False) ?_ fun _ _ hf => hf.elim
  rcases hput with hgone | ⟨D, off, obsolete, hD, hone, hop, hA⟩
  · refine returns_getData fun D hD => ?_
    rw [hdatas, hgone] at hD
    cases hD
  · exact dataPut_torn (by rw [hdatas]; exact hD) hone hop (by rw [hallocs]; exact hA)

/-! ## The loop -/

theorem Ruins.page_ne (u : Ruins h b a ks Z) {p : Nat} (hp : p ∈ ks.map Block.page ++ Z) : p ≠ b :=
  fun he => (List.nodup_cons.mp u.ring.nodup).1 (he ▸ hp)

/-- A round takes the first page out. -/
theorem Ruins.clearRound_run (u : Ruins h b a (k :: ks) Z) :
    clearRound b trivialBufferNextIterator k.page h
      = (do
          unlinkPage k.page
          pure (.inl ((ks.map Block.page ++ Z).headD b)) : PbM (Nat ⊕ Unit)) h := by
  have hlive : (h.pages k.page).isSome := (u.pages _).mpr (by simp)
  obtain ⟨P, hP⟩ := Option.isSome_iff_exists.mp hlive
  have hnext : P.next = some ((ks.map Block.page ++ Z).headD b) := by
    rw [← Heap.nextOf_eq hP]
    exact (@IsRing.next_mem _ _ _ _ _ []) u.ring
  have hrun : trivialBufferNextIterator k.page h
      = .ok ((ks.map Block.page ++ Z).headD b, h) :=
    (bind_run (getPage_run hP)).trans (deref_run hnext)
  unfold clearRound bufferIsEndIterator trivialBufferIsEndIterator
  rw [if_neg (by simpa using u.page_ne (p := k.page) (by simp))]
  exact bind_run hrun

theorem clear_end {fuel : Nat} :
    loopM .diverges (clearRound b trivialBufferNextIterator) (fuel + 1) b h = .ok ((), h) := by
  unfold loopM clearRound bufferIsEndIterator trivialBufferIsEndIterator
  rw [if_pos (by simp)]
  rfl

/-- **The ring is taken down** as long as the counter can count its pages. -/
theorem Teardown.clear_yields (t : Teardown h b a fd head ks [] X T n) (hn : ks.length < n)
    (hle : n ≤ 65536) {fuel : Nat} (hf : ks.length < fuel) :
    Yields (loopM .diverges (clearRound b trivialBufferNextIterator) fuel
      ((ks.map Block.page).headD b)) h (fun _ h' =>
        Teardown h' b a fd head [] [] X T (n - ks.length) ∧ Emptied h h' a) := by
  induction ks generalizing h n fuel with
  | nil =>
      obtain ⟨fuel, rfl⟩ := Nat.exists_eq_succ_of_ne_zero (by omega : fuel ≠ 0)
      exact Yields.intro clear_end ⟨t, .refl h a⟩
  | cons k ks ih =>
      obtain ⟨fuel, rfl⟩ := Nat.exists_eq_succ_of_ne_zero (by omega : fuel ≠ 0)
      simp only [List.length_cons] at hn hf ⊢
      refine Yields.bind (P := fun r h' => r = .inl ((ks.map Block.page).headD b) ∧
        Teardown h' b a fd head ks [] X T (n - 1) ∧ Emptied h h' a) ?_ ?_
      · refine Yields.of_eq t.clearRound_run ?_
        refine Yields.bind (t.unlink (by omega) (by omega)) fun _ h' hpost => ?_
        exact yields_pure.mpr ⟨by rw [List.append_nil], hpost⟩
      · intro r h' hpost
        obtain ⟨rfl, t', e⟩ := hpost
        refine (ih t' (by omega) (by omega) (by omega)).mono fun _ h'' hpost' => ?_
        obtain ⟨t'', e'⟩ := hpost'
        rw [show n - (ks.length + 1) = n - 1 - ks.length by omega]
        exact ⟨t'', e.trans e'⟩

theorem clear_stuck {p : Nat} (hne : p ≠ b) (hst : h.Stuck a p) :
    Returns (clearRound b trivialBufferNextIterator p) h (fun _ _ => False) := by
  unfold clearRound bufferIsEndIterator trivialBufferIsEndIterator
  rw [if_neg (by simpa using hne)]
  refine Returns.bind (returns_trivialBufferNextIterator p h) fun nxt g hg => ?_
  subst hg
  exact Returns.bind (unlinkPage_stuck hst) fun _ _ hf => hf.elim

/-- **It faults** with more pages, as the allocator is gone when the counter comes to zero and
pages are left, and where the data of a page is gone. -/
theorem Teardown.clear_fails (t : Teardown h b a fd head ks Z X T n) (hn : ks.length < n)
    (hbad : n ≤ ks.length + 2 ∧ 65536 < n ∨ Z ≠ []) (fuel : Nat) :
    Returns (loopM .diverges (clearRound b trivialBufferNextIterator) fuel
      ((ks.map Block.page ++ Z).headD b)) h (fun _ _ => False) := by
  refine Returns.loop (I := fun it h' =>
    (∃ ks n, it = (ks.map Block.page ++ Z).headD b ∧ Teardown h' b a fd head ks Z X T n ∧
      ks.length < n ∧ (n ≤ ks.length + 2 ∧ 65536 < n ∨ Z ≠ [])) ∨
    it ≠ b ∧ h'.Stuck a it) ?_ fuel _ h (.inl ⟨ks, n, rfl, t, hn, hbad⟩)
  intro it h' hI
  rcases hI with ⟨ks, n, rfl, t, hn, hbad⟩ | ⟨hne, hst⟩
  · cases ks with
    | nil =>
        cases Z with
        | nil =>
            simp only [List.length_nil, ne_eq, not_true_eq_false, or_false] at hbad
            omega
        | cons z Z =>
            have hst : h'.Stuck a z := by
              obtain ⟨d, hd, hgone⟩ := t.dead z List.mem_cons_self
              exact ⟨d, hd, .inl hgone⟩
            exact (clear_stuck (t.page_ne (by simp)) hst).mono fun _ _ hf => hf.elim
    | cons k ks =>
        simp only [List.length_cons] at hn hbad
        refine Returns.of_eq t.clearRound_run ?_
        by_cases hlast : n % 65536 = 1
        · -- the allocator goes with this page, and another one follows
          obtain ⟨A, -, huse, hrun⟩ := t.unlink_first
          refine Returns.bind hrun.returns fun _ h'' g => Returns.pure (.inr ?_)
          have u := g.ruins t.toRuins
          have hnone : h''.mmapAllocators a = none := by
            have hzero : u16Dec A.useCount = 0 := by
              rw [huse, u16Dec_mod (by omega)]
              omega
            rw [g.mmapAllocators, update_self, MmapAllocator.without, if_pos hzero]
          cases ks with
          | nil =>
              cases Z with
              | nil =>
                  simp only [List.length_nil, ne_eq, not_true_eq_false, or_false] at hbad
                  omega
              | cons z Z =>
                  obtain ⟨d, hd, hgone⟩ := u.dead z List.mem_cons_self
                  exact ⟨u.page_ne (by simp), d, hd, .inl hgone⟩
          | cons k' ks => exact ⟨u.page_ne (by simp), (u.owns k' List.mem_cons_self).stuck hnone⟩
        · refine Returns.bind (t.unlink (by omega) hlast).returns fun _ h'' hpost => ?_
          exact Returns.pure (.inl ⟨ks, n - 1, rfl, hpost.1, by omega, hbad.imp (by omega) id⟩)
  · exact (clear_stuck hne hst).mono fun _ _ hf => hf.elim

/-- Without the allocator there is no end of the pages. -/
theorem Ruins.clear_torn (u : Ruins h b a (k :: ks) Z) (hA : h.mmapAllocators a = none)
    (fuel : Nat) : Returns (loopM .diverges (clearRound b trivialBufferNextIterator) fuel k.page) h
      (fun _ _ => False) := by
  cases fuel with
  | zero => exact Returns.throw
  | succ fuel =>
      have hst := (u.owns k List.mem_cons_self).stuck hA
      exact Returns.bind (clear_stuck (u.page_ne (by simp)) hst) fun _ _ hf => hf.elim

/-! ## From the window and back -/

theorem Ruins.congr (u : Ruins h b a ks Z) (hp : h'.pages = h.pages) (hd : h'.datas = h.datas) :
    Ruins h' b a ks Z where
  ring := u.ring.congr (fun y _ => by rw [Heap.nextOf_congr hp])
    (fun y _ => by rw [Heap.prevOf_congr hp])
  pages := fun p => by rw [hp, u.pages]
  owns := fun k hk => ⟨by rw [Heap.dataOf_congr hp, (u.owns k hk).data], by
    rw [hd]
    exact (u.owns k hk).owned⟩
  dead := fun z hz => by
    rw [Heap.dataOf_congr hp, hd]
    exact u.dead z hz
  once := u.once

theorem Teardown.congr (t : Teardown h b a fd head ks Z X T n) (hp : h'.pages = h.pages)
    (hd : h'.datas = h.datas) (hA : h'.mmapAllocators = h.mmapAllocators) :
    Teardown h' b a fd head ks Z X T n where
  toRuins := t.toRuins.congr hp hd
  sentinel := by
    rw [Heap.dataOf_congr hp, Heap.lenOf_congr hp]
    exact t.sentinel
  datas := fun d => by
    rw [hd]
    exact t.datas d
  stale := t.stale
  allocator := by
    rw [hA]
    exact t.allocator

namespace Maps

variable (mp : Maps h R b a fd head ks)

include mp

/-- Every block's data has one user. -/
theorem refs_data (hk : k ∈ ks) : h.refs k.data = 1 := by
  have hl := mp.inv.core.links
  have hnd : (ks.map Block.page).Nodup := by
    rw [← mp.ring]
    exact hl.nodup mp.opened.isSome
  have hall : ∀ p, p < h.next → h.dataOf p = some k.data → p ∈ ks.map Block.page := by
    intro p _ hp
    obtain ⟨k', hk', rfl, -⟩ := mp.page_of_data hp
    exact List.mem_map_of_mem hk'
  have hlt : ∀ p ∈ ks.map Block.page, p < h.next := by
    intro p hp
    rw [← mp.ring] at hp
    exact hl.fresh ((hl.live p).mpr (.inr (.inl ⟨b, hp⟩)))
  rw [Heap.refs, ← countP_eq_holders hnd hlt hall, List.countP_map]
  have hsame : ks.countP ((fun p => decide (h.dataOf p = some k.data)) ∘ Block.page)
      = (ks.map Block.data).count k.data := by
    rw [List.count, List.countP_map]
    refine List.countP_congr fun k' hk' => ?_
    simp [(mp.shows k' hk').data]
  rw [hsame]
  exact List.count_eq_one_of_mem mp.once (List.mem_map_of_mem hk)

/-- The allocator is held by the buffer and the data of every block. -/
theorem allocRefs_eq : h.allocRefs a = ks.length + 1 := by
  have hc := mp.inv.core
  have hdata : holders h.next h.allocatorOf a = ks.length := by
    have hlt : ∀ d ∈ ks.map Block.data, d < h.next := by
      intro d hd
      obtain ⟨k, hk, rfl⟩ := List.mem_map.mp hd
      exact hc.objs.freshData (by rw [(mp.shows k hk).shape]; rfl)
    have hall : ∀ d, d < h.next → h.allocatorOf d = some a → d ∈ ks.map Block.data := by
      intro d _ hd
      obtain ⟨s, off, ob, hs, -⟩ := Heap.allocatorOf_eq_some.mp hd
      obtain ⟨k, hk, rfl⟩ := mp.block_of_data hs
      exact List.mem_map_of_mem hk
    rw [← countP_eq_holders mp.once hlt hall, List.countP_map]
    refine List.countP_eq_length.mpr fun k hk => ?_
    simpa using Heap.allocatorOf_eq_some.mpr ⟨_, _, _, (mp.shows k hk).shape, rfl⟩
  have hbuffer : holders h.next h.bufferAllocatorOf a = 1 := by
    have hof : h.bufferAllocatorOf b = some a := by
      rw [Heap.bufferAllocatorOf, mp.opened.kind]
      rfl
    have hlt : ∀ e ∈ [b], e < h.next := by
      simpa using hc.links.buffer_fresh mp.opened.isSome
    have hall : ∀ e, e < h.next → h.bufferAllocatorOf e = some a → e ∈ [b] := by
      intro e _ he
      by_contra hne
      have hdead := mp.alone e (by simpa using hne)
      rw [Heap.bufferAllocatorOf, Heap.kindOf_eq_none.mpr hdead] at he
      cases he
    rw [← countP_eq_holders (List.nodup_singleton b) hlt hall]
    simp [hof]
  rw [Heap.allocRefs, hdata, hbuffer]

theorem teardown : Teardown h b a fd head ks [] [] [] (ks.length + 1) := by
  have hc := mp.inv.core
  have hb := mp.opened.isSome
  refine ⟨⟨?_, ?_, ?_, by simp, mp.once⟩, hc.views.sentinel hb, ?_, by simp, ?_⟩
  · rw [List.append_nil, ← mp.ring]
    exact hc.links.ring hb
  · intro p
    rw [hc.links.live, List.append_nil, ← mp.ring]
    constructor
    · rintro (hp | ⟨e, hp⟩ | hp)
      · by_contra hn
        rw [mp.alone p (fun he => hn (.inl he))] at hp
        cases hp
      · by_cases he : e = b
        · exact .inr (he ▸ hp)
        · rw [hc.links.dead (mp.alone e he)] at hp
          cases hp
      · cases hp
    · rintro (rfl | hp)
      · exact .inl hb
      · exact .inr (.inl ⟨b, hp⟩)
  · intro k hk
    have hshow := mp.shows k hk
    obtain ⟨D, hD, hshape⟩ := Option.map_eq_some_iff.mp hshow.shape
    refine ⟨hshow.data, D, hD, ?_, congrArg (fun s => s.dataVec.base) hshape,
      congrArg Shape.operations hshape⟩
    have hcount := hc.objs.count hD
    simpa [Heap.count, mp.refs_data hk] using hcount
  · intro d hd
    obtain ⟨D, hD⟩ := Option.isSome_iff_exists.mp hd
    obtain ⟨k, hk, rfl⟩ := mp.block_of_data (Heap.shapeOf_eq hD)
    exact .inl (List.mem_map_of_mem hk)
  · obtain ⟨A, hA, hfd, hhead⟩ := mp.opened.allocator
    obtain ⟨hnd, htree⟩ := hc.allocs.tree hA
    refine ⟨A, hA, hfd, hhead, ?_, hnd, fun d => ⟨fun hd => ?_, ?_⟩⟩
    · rw [hc.allocs.count hA, mp.allocRefs_eq]
    · obtain ⟨s, off, hs, hop⟩ := htree d hd
      obtain ⟨k, hk, rfl⟩ := mp.block_of_data hs
      rw [(mp.shows k hk).shape] at hs
      cases hs
      exact .inl ⟨k, hk, rfl, (DataClass.mmap.inj hop).2.2⟩
    · rintro (⟨k, hk, rfl, hlive⟩ | hd)
      · exact mp.found_of_block hA hk hlive
      · cases hd

end Maps

/-- The mmap buffer `b` with its allocator is all there is besides pages, their data and the
mappings of these. -/
structure Bare (h : Heap) (b a : Nat) : Prop where
  kind : h.kindOf b = some (mmapBufferStrategy, .mmap a)
  alone : ∀ e, e ≠ b → h.buffers e = none
  blocks : ∀ n, h.blocks n = none
  allocators : ∀ a', a' ≠ a → h.mmapAllocators a' = none
  mapping : ∀ {m}, (h.mappings m).isSome → m < h.next
  fresh : b < h.next

theorem Maps.bare (mp : Maps h R b a fd head ks) : Bare h b a where
  kind := mp.opened.kind
  alone := mp.alone
  blocks := fun n => by
    by_contra hn
    -- a block is the memory of data, and all the data there is are mapped
    obtain ⟨d, s, hs, hop, -⟩ := mp.inv.core.objs.owner (Option.isSome_iff_ne_none.mpr hn)
    obtain ⟨k, hk, rfl⟩ := mp.block_of_data hs
    rw [(mp.shows k hk).shape] at hs
    cases hs
    cases hop
  allocators := fun a' hne => by
    by_contra hn
    have hpos := (mp.inv.core.allocs.live a').mp (Option.isSome_iff_ne_none.mpr hn)
    rw [Heap.allocRefs] at hpos
    rcases Nat.add_pos_iff_pos_or_pos.mp hpos with hpos | hpos
    · obtain ⟨d, -, hd⟩ := holders_pos_iff.mp hpos
      obtain ⟨s, off, ob, hs, hop⟩ := Heap.allocatorOf_eq_some.mp hd
      obtain ⟨k, hk, rfl⟩ := mp.block_of_data hs
      rw [(mp.shows k hk).shape] at hs
      cases hs
      exact hne (DataClass.mmap.inj hop).1.symm
    · obtain ⟨e, -, he⟩ := holders_pos_iff.mp hpos
      by_cases heb : e = b
      · rw [heb, Heap.bufferAllocatorOf, mp.opened.kind] at he
        exact hne (Option.some.inj he).symm
      · rw [Heap.bufferAllocatorOf, Heap.kindOf_eq_none.mpr (mp.alone e heb)] at he
        cases he
  mapping := mp.inv.core.allocs.freshMapping
  fresh := mp.inv.core.links.buffer_fresh mp.opened.isSome

theorem Bare.emptied (s : Bare h b a) (e : Emptied h h' a) : Bare h' b a where
  kind := by rw [Heap.kindOf, e.buffers]; exact s.kind
  alone := fun c hc => by rw [e.buffers, s.alone c hc]
  blocks := fun n => by rw [e.blocks, s.blocks]
  allocators := fun a' ha => by rw [e.allocator ha, s.allocators a' ha]
  mapping := fun hm => by rw [e.next]; exact s.mapping (e.mapping hm)
  fresh := by rw [e.next]; exact s.fresh

/-- **An mmap buffer without pages**, with nothing else in the heap. -/
theorem Teardown.maps (t : Teardown h b a fd head [] [] [] [] 1) (s : Bare h b a)
    (hle : head ≤ (h.files fd.file).length)
    (hsize : ∀ B, h.buffers b = some B → B.dataSize = 0) :
    Maps h (fun _ => []) b a fd head [] := by
  obtain ⟨A, hA, hfd, hhead, huse, -, htree⟩ := t.allocator
  have hpages : ∀ p, (h.pages p).isSome ↔ p = b := fun p => by simpa using t.pages p
  have hdatas : ∀ d, h.datas d = none := fun d => by
    by_contra hn
    simpa using t.datas d (Option.isSome_iff_ne_none.mpr hn)
  have hshape : ∀ d, h.shapeOf d = none := fun d => by rw [Heap.shapeOf, hdatas]; rfl
  have hdataOf : ∀ p, h.dataOf p = none := fun p => by
    by_cases hp : p = b
    · rw [hp]
      exact t.sentinel.1
    · rw [Heap.dataOf_of_none]
      exact Option.not_isSome_iff_eq_none.mp (fun hl => hp ((hpages p).mp hl))
  have hbuffers : ∀ c, (h.buffers c).isSome ↔ c = b := fun c => by
    constructor
    · intro hc
      by_contra hne
      rw [s.alone c hne] at hc
      cases hc
    · rintro rfl
      rw [← h.isSome_kindOf, s.kind]
      rfl
  have hlive : ∀ c, (h.buffers c).isSome → c = b := fun c => (hbuffers c).mp
  have hrefs : ∀ d, h.refs d = 0 := fun d => by
    by_contra hn
    obtain ⟨p, -, hp⟩ := holders_pos_iff.mp (Nat.pos_of_ne_zero hn)
    rw [hdataOf] at hp
    cases hp
  have hof : h.bufferAllocatorOf b = some a := by
    rw [Heap.bufferAllocatorOf, s.kind]
    rfl
  have hallocRefs : ∀ a', h.allocRefs a' = if a' = a then 1 else 0 := fun a' => by
    have hdata : holders h.next h.allocatorOf a' = 0 := by
      by_contra hn
      obtain ⟨d, -, hd⟩ := holders_pos_iff.mp (Nat.pos_of_ne_zero hn)
      rw [Heap.allocatorOf, hshape] at hd
      cases hd
    have hall : ∀ e, e < h.next → h.bufferAllocatorOf e = some a' → e ∈ [b] := by
      intro e _ he
      by_contra hne
      rw [Heap.bufferAllocatorOf, Heap.kindOf_eq_none.mpr (s.alone e (by simpa using hne))] at he
      cases he
    rw [Heap.allocRefs, hdata, ← countP_eq_holders (List.nodup_singleton b)
      (by simpa using s.fresh) hall]
    by_cases he : a' = a
    · simp [he, hof]
    · simp [he, hof, Ne.symm he]
  have htreenil : A.dataTree = [] := List.eq_nil_iff_forall_not_mem.mpr fun d hd => by
    simpa using (htree d).mp hd
  have hcore : Core h (fun _ => []) [] [] :=
    { links :=
        { ring := fun {c} hc => by
            rw [hlive c hc]
            exact t.ring
          dead := fun _ => rfl
          disj := fun hp => by cases hp
          page := fun hp => by cases hp
          flight := List.nodup_nil
          apart := fun hp => by cases hp
          live := fun p => by
            rw [hpages, hbuffers]
            simp
          fresh := fun {p} hp => by
            rw [(hpages p).mp hp]
            exact s.fresh }
      views :=
        { data := fun {p} hp hb => by
            have := (hbuffers p).mpr ((hpages p).mp hp)
            rw [hb] at this
            cases this
          sentinel := fun {c} hc => by
            rw [hlive c hc]
            exact t.sentinel
          region := fun {p d _} hp => by
            rw [hdataOf] at hp
            cases hp }
      objs :=
        { live := fun d => by
            rw [hshape]
            simp [Heap.count, hrefs]
          count := fun {d D} hD => by
            rw [hdatas] at hD
            cases hD
          owned := fun {d _} hs => by
            rw [hshape] at hs
            cases hs
          referenced := fun {d _} hs => by
            rw [hshape] at hs
            cases hs
          owner := fun {n} hn => by
            rw [s.blocks] at hn
            cases hn
          excl := fun {d _ _ _} hs => by
            rw [hshape] at hs
            cases hs
          freshData := fun {d} hd => by
            rw [hshape] at hd
            cases hd
          freshBlock := fun {n} hn => by
            rw [s.blocks] at hn
            cases hn }
      allocs :=
        { mapped := fun {d _ _ _ _} hs => by
            rw [hshape] at hs
            cases hs
          tree := fun {a' A'} hA' => by
            by_cases he : a' = a
            · rw [he, hA] at hA'
              cases hA'
              rw [htreenil]
              exact ⟨List.nodup_nil, by simp⟩
            · rw [s.allocators a' he] at hA'
              cases hA'
          count := fun {a' A'} hA' => by
            by_cases he : a' = a
            · rw [he, hA] at hA'
              cases hA'
              rw [huse, hallocRefs, if_pos he]
            · rw [s.allocators a' he] at hA'
              cases hA'
          live := fun a' => by
            rw [hallocRefs]
            by_cases he : a' = a
            · simp [he, hA]
            · simp [he, s.allocators a' he]
          freshMapping := s.mapping }
      writable := fun c _ p hp => by cases hp }
  exact
    { inv := ⟨hcore, fun c C hC => by
        have hcb := hlive c (by rw [hC]; rfl)
        subst hcb
        exact hsize C hC⟩
      opened := ⟨s.kind, ⟨A, hA, hfd, hhead⟩, hle⟩
      alone := s.alone
      ring := rfl
      shows := by simp
      once := List.nodup_nil
      stretch := .nil _
      first := .inl rfl }

/-! ## `pb_trivial_pure_buffer_clear` -/

/-- The heap where the buffer has its revision bumped and no size. -/
def Heap.sizeless (h : Heap) (b : Nat) (B : Buffer) : Heap :=
  h.setBuffer b (some { B with dataRevision := B.dataRevision + 1, dataSize := 0 })

/-- The call is its loop. -/
theorem Ruins.pureClear_eq (u : Ruins h b a ks Z) (hB : h.buffers b = some B) :
    trivialPureBufferClear b h = loopM .diverges (clearRound b trivialBufferNextIterator)
      (h.next + 1) ((ks.map Block.page ++ Z).headD b) (h.sizeless b B) := by
  have hB₁ : (h.setBuffer b (some { B with dataRevision := B.dataRevision + 1 })).buffers b
      = some { B with dataRevision := B.dataRevision + 1 } := update_self _ _ _
  have hB₂ : (h.setBuffer b (some { B with dataRevision := B.dataRevision + 1 })).setBuffer b
      (some { B with dataRevision := B.dataRevision + 1, dataSize := 0 }) = h.sizeless b B := by
    simp [Heap.sizeless, Heap.setBuffer]
  have hlive : (h.pages b).isSome := (u.pages b).mpr (.inl rfl)
  obtain ⟨E, hE⟩ := Option.isSome_iff_exists.mp hlive
  have hnext : E.next = some ((ks.map Block.page ++ Z).headD b) := by
    rw [← Heap.nextOf_eq hE, u.ring.next_end]
  have hget : trivialBufferGetIterator b (h.sizeless b B)
      = .ok ((ks.map Block.page ++ Z).headD b, h.sizeless b B) :=
    (bind_run (getPage_run (h := h.sizeless b B) hE)).trans (deref_run hnext)
  unfold trivialPureBufferClear trivialBufferClearImpl
  refine (bind_run (modifyBuffer_run hB _)).trans ((bind_run (modifyBuffer_run hB₁ _)).trans ?_)
  rw [hB₂]
  exact (bind_run hget).trans ((bind_run get_run).trans rfl)

/-- What the call leaves of the buffer and of what is not a page of it. -/
structure Cleared (h h' : Heap) (b a : Nat) : Prop where
  buffer : ∃ B, h.buffers b = some B ∧ h'.buffers b
    = some { B with dataRevision := B.dataRevision + 1, dataSize := 0 }
  bare : Bare h b a → Bare h' b a
  files : h'.files = h.files

theorem Emptied.cleared (hB : h.buffers b = some B)
    (e : Emptied (h.sizeless b B) h' a) : Cleared h h' b a where
  buffer := ⟨B, hB, by rw [e.buffers]; exact update_self _ _ _⟩
  bare := fun s => by
    have s' : Bare (h.sizeless b B) b a :=
      { kind := by
          have hk := s.kind
          rw [Heap.kindOf, hB] at hk
          rw [Heap.kindOf, show (h.sizeless b B).buffers b = _ from update_self _ _ _]
          exact hk
        alone := fun c hc => (update_of_ne hc _ h.buffers).trans (s.alone c hc)
        blocks := s.blocks
        allocators := s.allocators
        mapping := s.mapping
        fresh := s.fresh }
    exact s'.emptied e
  files := e.files

theorem Cleared.revision (s : Cleared h h' b a) : h'.revOf b = h.revOf b + 1 := by
  obtain ⟨B, hB, hB'⟩ := s.buffer
  rw [Heap.revOf_eq hB, Heap.revOf_eq hB']

/-- **`pb_trivial_pure_buffer_clear`** of a ring that can be taken down. -/
theorem Teardown.pureClear (t : Teardown h b a fd head ks [] X T n) (hB : (h.buffers b).isSome)
    (hn : ks.length < n) (hfew : n ≤ ks.length + 2) (hf : ks.length ≤ h.next) :
    Settles (n ≤ 65536) (trivialPureBufferClear b) h (fun _ h' =>
      Teardown h' b a fd head [] [] X T (n - ks.length) ∧ Cleared h h' b a) := by
  obtain ⟨B, hB⟩ := Option.isSome_iff_exists.mp hB
  have t' : Teardown (h.sizeless b B) b a fd head ks [] X T n := t.congr rfl rfl rfl
  have hloop : Settles (n ≤ 65536) (loopM .diverges (clearRound b trivialBufferNextIterator)
      (h.next + 1) ((ks.map Block.page ++ []).headD b)) (h.sizeless b B) (fun _ h' =>
        Teardown h' b a fd head [] [] X T (n - ks.length) ∧ Emptied (h.sizeless b B) h' a) := by
    refine ⟨fun hle => ?_, fun hlt => t'.clear_fails hn (.inl ⟨hfew, by omega⟩) _⟩
    rw [List.append_nil]
    exact t'.clear_yields hn hle (Nat.lt_succ_of_le hf)
  refine Settles.of_eq (t.pureClear_eq hB) (hloop.mono fun _ h' hpost => ?_)
  exact ⟨hpost.1, hpost.2.cleared hB⟩

/-- It faults on a page whose data is gone. -/
theorem Teardown.pureClear_dead (t : Teardown h b a fd head ks Z X T n) (hB : (h.buffers b).isSome)
    (hn : ks.length < n) (hZ : Z ≠ []) :
    Returns (trivialPureBufferClear b) h (fun _ _ => False) := by
  obtain ⟨B, hB⟩ := Option.isSome_iff_exists.mp hB
  have t' : Teardown (h.sizeless b B) b a fd head ks Z X T n := t.congr rfl rfl rfl
  exact Returns.of_eq (t.pureClear_eq hB) (t'.clear_fails hn (.inr hZ) _)

theorem Ruins.pureClear_torn (u : Ruins h b a (k :: ks) Z) (hB : (h.buffers b).isSome)
    (hA : h.mmapAllocators a = none) : Returns (trivialPureBufferClear b) h (fun _ _ => False) := by
  obtain ⟨B, hB⟩ := Option.isSome_iff_exists.mp hB
  have u' : Ruins (h.sizeless b B) b a (k :: ks) Z := u.congr rfl rfl
  exact Returns.of_eq (u.pureClear_eq hB) (u'.clear_torn hA _)

end Pb
