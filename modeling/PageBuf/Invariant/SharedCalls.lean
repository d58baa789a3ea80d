import PageBuf.Invariant.Calls
import PageBuf.Invariant.SharedTransfer

/-!
# SharedCalls — every correct call keeps what is lent

A call on a trivial buffer leaves the window and the file alone. A call on the
mmap buffer may map blocks, give its pages up or lengthen the file, and leaves
the pages of the trivial buffers as they are. The invariant is `Lends`, with
another window and perhaps another head after the call.
-/

namespace Pb

open StateRun Function Ring RefCount

variable {env : Env} {h h' h'' : Heap} {R R' : Nat → List Nat} {a b d e head head' n p r t : Nat}
  {A : MmapAllocator} {fd : Fd} {k : Block} {ks ks' : List Block} {bs : List UInt8}

/-! ## Room in the counters -/

theorem Heap.mmapFieldsOf_eq_some {off : Nat} {obsolete : Bool} :
    h.mmapFieldsOf d = some (a, off, obsolete) ↔
      ∃ s, h.shapeOf d = some s ∧ s.operations = .mmap a off obsolete := by
  rw [mmapFieldsOf, shapeOf]
  cases hD : h.datas d with
  | none => simp
  | some D =>
      obtain ⟨v, use, resp, op⟩ := D
      cases op <;> simp [Data.shape]

theorem Heap.mmapFieldsOf_fst (h : Heap) :
    (fun d => (h.mmapFieldsOf d).map Prod.fst) = h.allocatorOf := by
  funext d
  rw [mmapFieldsOf, allocatorOf, shapeOf]
  cases hD : h.datas d with
  | none => rfl
  | some D =>
      obtain ⟨v, use, resp, op⟩ := D
      cases op <;> rfl

namespace Lends

variable (m : Lends h R b a fd head ks)

include m

theorem filled : Filled h R := ⟨m.inv, m.full⟩

/-- Only the mmap buffer holds an allocator. -/
theorem eq_of_allocator (hb : h.bufferAllocatorOf e = some d) : e = b := by
  by_contra hne
  have hlive : (h.buffers e).isSome := by
    by_contra hn
    have hnone : h.kindOf e = none :=
      Heap.kindOf_eq_none.mpr (Option.not_isSome_iff_eq_none.mp hn)
    rw [Heap.bufferAllocatorOf, hnone] at hb
    cases hb
  obtain ⟨B, hB, hop⟩ := m.others hne hlive
  rw [Heap.bufferAllocatorOf, Heap.kindOf, hB, Option.map_some, hop] at hb
  cases hb

theorem allocRefs_le (a' : Nat) : h.allocRefs a' ≤ 1 + h.blocksMapped a' := by
  have hone : holders h.next h.bufferAllocatorOf a' ≤ 1 := holders_le_one fun c c' hc hc' => by
    rw [m.eq_of_allocator hc, m.eq_of_allocator hc']
  rw [Heap.blocksMapped, Heap.mmapFieldsOf_fst, Heap.allocRefs]
  omega

/-- The buffer holds its allocator, and so do the mappings. -/
theorem allocRefs_eq : h.allocRefs a = 1 + h.blocksMapped a := by
  have hle := m.allocRefs_le a
  have hb : h.bufferAllocatorOf b = some a := by
    rw [Heap.bufferAllocatorOf, m.opened.kind]
    rfl
  have hpos : 0 < holders h.next h.bufferAllocatorOf a :=
    holders_pos_iff.mpr ⟨b, m.inv.core.links.buffer_fresh m.opened.isSome, hb⟩
  rw [Heap.blocksMapped, Heap.mmapFieldsOf_fst, Heap.allocRefs] at *
  omega

theorem fits (hr : h.Roomy) : h.Fits where
  small := fun d => Nat.le_trans (hr.users d) (by omega)
  allocs := fun a' => by
    have hblocks := hr.blocks a'
    have hle := m.allocRefs_le a'
    omega

/-- Where everything that may be mapped is counted, a page more can be linked. -/
theorem ready (hr : h.Roomy) (hc : ∀ d, ¬h.Uncounted b d) : h.Ready a fd head ks 1 := by
  intro d s off hs hop hd
  have hfew := hr.users d
  refine ⟨by omega, not_or.mp fun hcond => hc d ?_⟩
  obtain ⟨D, hD⟩ := Heap.exists_data (h := h) (d := d) (by rw [hs]; rfl)
  rw [Heap.shapeOf_eq hD] at hs
  cases hs
  refine ⟨D, a, off, hD, hop, fun p hp he => ?_, ?_⟩
  · rw [m.pagesOf] at hp
    obtain ⟨k, hk, rfl⟩ := List.mem_map.mp hp
    rw [(m.shows k hk).data] at he
    exact hd (Option.some.inj he ▸ List.mem_map_of_mem hk)
  · rw [m.opened.fileHead, m.opened.fileOf]
    exact hcond

end Lends

/-! ## What a call leaves alone -/

/-- The buffers that satisfy `P` have the pages they had, and these their bytes, where no file has
grown or they do not reach beyond their mapping. No byte of a file goes away or is changed. -/
structure Spares (P : Nat → Prop) (h h' : Heap) (R R' : Nat → List Nat) : Prop where
  files : ∀ f, h.files f <+: h'.files f
  maps : MapsStay h h'
  ring : ∀ {c}, P c → (h.buffers c).isSome → R' c = R c
  kind : ∀ {c}, P c → (h.buffers c).isSome → h'.kindOf c = h.kindOf c
  same : ∀ {c p}, P c → p ∈ R c → h'.files = h.files ∨ h.InsideMapping p → Same h h' p

theorem Beside.spares (s : Beside h h' R R' b) : Spares (· ≠ b) h h' R R' where
  files := fun f => by simp [s.files]
  maps := s.maps
  ring := fun hc _ => s.ring hc
  kind := fun hc _ => by rw [Heap.kindOf, Heap.kindOf, s.buffer hc]
  same := fun hc hp _ => s.same hc hp

theorem Between.spares (s : Between h h' R R' b t) : Spares (fun c => c ≠ b ∧ c ≠ t) h h' R R' where
  files := fun f => by simp [s.files]
  maps := s.maps
  ring := fun hc _ => s.ring hc.1 hc.2
  kind := fun hc _ => by rw [Heap.kindOf, Heap.kindOf, s.buffer hc.1 hc.2]
  same := fun hc hp _ => s.same hc.1 hc.2 hp

theorem Moved.spares {target : Option Nat} (s : Moved target h h' R R') (hl : Links h R []) :
    Spares (fun c => some c ≠ target) h h' R R' where
  files := fun f => by simp [s.world.files]
  maps := s.world.mapsStay
  ring := fun hc _ => s.ring hc
  kind := fun hc hb => by rw [Heap.kindOf, Heap.kindOf, (s.other hb hc).1]
  same := fun {c p} hc hp _ => by
    have hb : (h.buffers c).isSome := by
      by_contra hn
      rw [hl.dead (Option.not_isSome_iff_eq_none.mp hn)] at hp
      cases hp
    exact (s.other hb hc).2 p hp

theorem Spares.mono {P Q : Nat → Prop} (s : Spares P h h' R R') (hPQ : ∀ c, Q c → P c) :
    Spares Q h h' R R' :=
  ⟨s.files, s.maps, fun hc => s.ring (hPQ _ hc), fun hc => s.kind (hPQ _ hc),
    fun hc => s.same (hPQ _ hc)⟩

/-- Where a call leads to: the window is another one perhaps, and begins elsewhere. Only a call
that `Appends` has changed a file. -/
def Leaving (P : Nat → Prop) (Appends : Prop) (h h' : Heap) (R : Nat → List Nat) (b a : Nat)
    (fd : Fd) : Prop :=
  ∃ R' head' ks', Lends h' R' b a fd head' ks' ∧ Spares P h h' R R' ∧
    (¬Appends → h'.files = h.files)

/-! ## Calls on trivial buffers -/

/-- A correct call works on a trivial buffer. -/
theorem Op.Valid.target {op : Op} (hv : op.Valid h) (ht : op.target = some t) : h.IsTrivial t := by
  cases op <;> cases ht <;> first
    | exact hv
    | exact hv.1

theorem Op.TakesFrom.takesOutOf {op : Op} (hv : op.TakesFrom h b) : op.TakesOutOf b := by
  cases op with
  | writeBuffer t src len => exact hv.2.1
  | insertBuffer t it offset src len => exact hv.2.1
  | _ => exact hv.elim

theorem Opened.not_trivial (ho : Opened h b a fd head) : ¬h.IsTrivial b := by
  intro ht
  obtain ⟨B, hB, hop⟩ := ht
  obtain ⟨B', hB', hop'⟩ := ho.getBuffer
  rw [hB] at hB'
  cases hB'
  rw [hop] at hop'
  cases hop'

namespace Lends

variable (m : Lends h R b a fd head ks) (hs : env.Succeeds)

include m hs

/-- **A call on the trivial buffers** leaves the window as it is. -/
theorem trivialCall {op : Op} (hf : h.Fits) (hv : op.Valid h) :
    Yields (exec env op) h (fun _ h' => ∃ R', Lends h' R' b a fd head ks ∧
      Spares (fun c => some c ≠ op.target) h h' R R' ∧ h'.files = h.files) := by
  refine (exec_fills m.filled hf hv).mono fun _ h' hpost => ?_
  obtain ⟨R', f, mv, hkinds⟩ := hpost (.inr hs.not_refused)
  have htarget : some b ≠ op.target := fun he => m.opened.not_trivial (hv.target he.symm)
  have hb := m.opened.isSome
  obtain ⟨hbuffer, hsame⟩ := mv.other hb htarget
  have hkind : h'.kindOf b = h.kindOf b := by rw [Heap.kindOf, Heap.kindOf, hbuffer]
  refine ⟨R', m.along mv.world f.inv (mv.ring htarget) hkind hsame (fun {e} he hsome => ?_) f.full,
    mv.spares m.inv.core.links, mv.world.files⟩
  rcases hkinds e hsome with hk | htriv
  · have hold : (h.buffers e).isSome := by
      rw [← h.isSome_kindOf, ← hk, h'.isSome_kindOf]
      exact hsome
    obtain ⟨B, hB, hop⟩ := m.others he hold
    rw [Heap.kindOf, Heap.kindOf, hB] at hk
    obtain ⟨B', hB', hk'⟩ := Option.map_eq_some_iff.mp hk
    exact ⟨B', hB', (Prod.mk.inj hk').2.trans hop⟩
  · exact htriv

/-- **A transfer out of the window** to a trivial buffer. -/
theorem takes {op : Op} (hr : h.Ready a fd head ks 1) (hv : op.TakesFrom h b) :
    Yields (exec env op) h (fun _ h' =>
      Leaving (fun c => c ≠ b ∧ some c ≠ op.target) False h h' R b a fd) := by
  have hkind : ∀ {t}, h.IsTrivial t → ∃ σ, h.kindOf t = some (σ, .trivial) := by
    intro t ht
    obtain ⟨B, hB, hop⟩ := ht
    exact ⟨B.strategy, by rw [Heap.kindOf, hB, Option.map_some, hop]⟩
  have hne : ∀ {t}, h.IsTrivial t → t ≠ b := fun ht he => m.opened.not_trivial (he ▸ ht)
  have hleft : ∀ {t c}, c ≠ b ∧ some c ≠ some t → c ≠ b ∧ c ≠ t :=
    fun hc => ⟨hc.1, fun he => hc.2 (congrArg some he)⟩
  cases op with
  | writeBuffer t src len =>
      obtain ⟨ht, rfl, -⟩ := hv
      obtain ⟨σ, hσ⟩ := hkind ht
      refine Yields.bind (m.writeBuffer hs (hr.mono (Nat.zero_le _)) hσ (hne ht) len) ?_
      intro c h' hpost
      obtain ⟨-, R', ks', tk⟩ := hpost
      exact yields_pure.mpr ⟨R', head, ks', tk.lends, tk.between.spares.mono fun _ => hleft,
        fun _ => tk.between.files⟩
  | insertBuffer t it offset src len =>
      obtain ⟨ht, rfl, hp, -⟩ := hv
      obtain ⟨σ, hσ⟩ := hkind ht
      obtain ⟨k₁, k₂, hR, hit, hin⟩ := m.inv.core.links.position ht.isSome hp
      refine Yields.bind (m.insertBuffer hs hr hσ (hne ht) hR hit hin len) ?_
      intro c h' hpost
      obtain ⟨-, R', ks', tk⟩ := hpost
      exact yields_pure.mpr ⟨R', head, ks', tk.lends, tk.between.spares.mono fun _ => hleft,
        fun _ => tk.between.files⟩
  | _ => exact hv.elim

end Lends

/-! ## A longer file -/

/-- Data that is not mapped is not in a file. -/
theorem Objs.not_mapped {c : Nat → Nat} (ho : Objs h c) {s : Shape} (hs : h.shapeOf d = some s)
    (hop : s.operations = .trivial) (i : Nat) : s.dataVec.base.region ≠ .mapped i := by
  intro hr
  cases hresp : s.responsibility with
  | owned =>
      obtain ⟨n, hbase, -⟩ := ho.owned hs hop hresp
      rw [hbase] at hr
      cases hr
  | referenced =>
      obtain ⟨n, hbase⟩ := ho.referenced hs hop hresp
      rw [hbase] at hr
      cases hr

namespace Lends

variable (m : Lends h R b a fd head ks)

include m

/-- What a page shows of a mapping is in the file. -/
theorem mapping_of_page {i : Nat} (hp : p ∈ R e) (hr : (h.vecOf p).base.region = .mapped i) :
    ∃ off len, h.mappings i = some ⟨fd.file, off, len⟩ ∧
      off + len ≤ (h.files fd.file).length := by
  have hc := m.inv.core
  have hlive := (hc.links.live p).mpr (.inr (.inl ⟨e, hp⟩))
  obtain ⟨d, hd⟩ := Option.isSome_iff_exists.mp (hc.views.data hlive (hc.links.page hp))
  obtain ⟨s, hs⟩ := hc.data_live hd
  have hregion := hc.views.region hd hs
  rw [hr] at hregion
  have hmap : s.operations ≠ .trivial := fun htriv => hc.objs.not_mapped hs htriv i hregion.symm
  obtain ⟨j, off, len, ob, hm⟩ := m.onFile.maps hs hmap
  have hshape := hm.shape
  rw [hs] at hshape
  cases hshape
  have hij : i = j := Region.mapped.inj hregion
  rw [hij]
  exact ⟨off, len, hm.mapping, hm.stop⟩

/-- The bytes of a page that does not reach beyond its mapping stay where they are in a longer
file. -/
theorem same_lengthens (ap : Lengthens h h' b fd bs r) (hp : p ∈ R e)
    (hin : h'.files = h.files ∨ h.InsideMapping p) : Same h h' p := by
  have f := ap.filed
  have hmem := f.mem
  have hvec : h'.vecOf p = h.vecOf p := congrFun (Heap.vecOf_congr f.idle.pages) p
  refine ⟨hvec, congrFun (Heap.dataOf_congr f.idle.pages) p, ?_⟩
  rw [Heap.pageBytes, Heap.pageBytes, Heap.lenOf, Heap.lenOf, hvec]
  rcases hin with hfiles | hin
  · exact Heap.bytes_congr (Heap.byteAt_congr (congrFun hmem _) f.idle.mappings hfiles)
  · refine List.map_congr_left fun n hn => ?_
    have hn' : n < (h.vecOf p).len := List.mem_range.mp hn
    cases hr : (h.vecOf p).base.region with
    | mapped i =>
        obtain ⟨off, len, hM, hstop⟩ := m.mapping_of_page hp hr
        have hbound := hin i _ hr hM
        have hM' : h'.mappings i = some ⟨fd.file, off, len⟩ := by
          rw [f.idle.mappings]
          exact hM
        dsimp only at hbound
        simp only [Heap.byteAt, hM, hM', f.file, List.getD_eq_getElem?_getD]
        rw [List.getElem?_append_left (by omega)]
    | null => simp only [Heap.byteAt, hmem]
    | heap j => simp only [Heap.byteAt, hmem]
    | caller j => simp only [Heap.byteAt, hmem]

/-- A longer file shows as much as before. -/
theorem lengthens (ap : Lengthens h h' b fd bs r) :
    Lends h' R b a fd head ks ∧ Spares (· ≠ b) h h' R R := by
  have f := ap.filed
  have hfile := f.file
  have hle : (h.files fd.file).length ≤ (h'.files fd.file).length := by
    rw [hfile, List.length_append]
    omega
  have hkind : h'.kindOf = h.kindOf := f.idle.kind
  have hlen : h'.lenOf = h.lenOf := Heap.lenOf_congr f.idle.pages
  refine ⟨?_, ?_⟩
  · exact
      { inv := ⟨f.core m.inv.core, ap.totals m.inv.totals⟩
        opened := m.opened.lengthens ap
        writable := m.writable
        others := fun {e} he hsome => by
          have hold : (h.buffers e).isSome := by
            rw [← h.isSome_kindOf, ← congrFun hkind e, h'.isSome_kindOf]
            exact hsome
          exact (m.others he hold).congr hkind
        full := fun e p hp => by
          rw [hlen]
          exact m.full e p hp
        ring := m.ring
        shows := fun k hk => by
          have hshow := m.shows k hk
          exact Heap.Shows.idle (h := h.setFile fd.file (h.files fd.file ++ bs))
            ⟨hshow.data, hshow.shape, hshow.mapping, hshow.vec⟩ f.idle
        once := m.once
        stretch := m.stretch.mono hle
        first := m.first
        last := m.last
        onFile := m.onFile.congr f.idle.shape f.idle.mappings hle }
  · have hmaps : MapsStay h h' := ⟨f.idle.mapsStay.next, f.idle.mapsStay.mapping⟩
    refine ⟨fun i => ?_, hmaps, fun _ _ => rfl, fun _ _ => congrFun hkind _,
      fun _ hp hin => m.same_lengthens ap hp hin⟩
    rw [f.idle.files]
    by_cases hi : i = fd.file
    · subst hi
      simp [Heap.setFile]
    · simp [Heap.setFile, update_of_ne hi]

end Lends

/-! ## Another head -/

@[simp] theorem Heap.mmapAllocators_withHead (h : Heap) (a : Nat) (A : MmapAllocator) (head : Nat) :
    (h.withHead a A head).mmapAllocators
      = update h.mmapAllocators a (some { A with fileHeadOffset := head }) := rfl

theorem Allocs.withHead (al : Allocs h) (hA : h.mmapAllocators a = some A) (head' : Nat) :
    Allocs (h.withHead a A head') where
  mapped := fun {d s a' off ob} hs hop => by
    obtain ⟨i, M, A', hbase, hM, hlen, hA', hin⟩ := al.mapped hs hop
    by_cases he : a' = a
    · subst he
      rw [hA] at hA'
      cases hA'
      exact ⟨i, M, _, hbase, hM, hlen, update_self _ _ _, hin⟩
    · exact ⟨i, M, A', hbase, hM, hlen, (update_of_ne he _ _).trans hA', hin⟩
  tree := fun {a' A'} hA' => by
    by_cases he : a' = a
    · subst he
      rw [Heap.mmapAllocators_withHead, update_self] at hA'
      have htree := al.tree hA
      cases hA'
      exact htree
    · rw [Heap.mmapAllocators_withHead, update_of_ne he] at hA'
      exact al.tree hA'
  count := fun {a' A'} hA' => by
    by_cases he : a' = a
    · subst he
      rw [Heap.mmapAllocators_withHead, update_self] at hA'
      have hcount := al.count hA
      cases hA'
      exact hcount
    · rw [Heap.mmapAllocators_withHead, update_of_ne he] at hA'
      exact al.count hA'
  live := fun a' => by
    rw [show (h.withHead a A head').allocRefs a' = h.allocRefs a' from rfl, ← al.live a']
    by_cases he : a' = a
    · subst he
      rw [hA]
      simp
    · simp [update_of_ne he]
  freshMapping := al.freshMapping

/-- Moving the head leaves everything else. -/
theorem Inv.withHead (hi : Inv h R) (hA : h.mmapAllocators a = some A) (head' : Nat) :
    Inv (h.withHead a A head') R where
  core :=
    { links := hi.core.links.congr rfl rfl (fun _ => rfl) (fun _ => rfl) (Nat.le_refl _)
      views := hi.core.views.congr rfl rfl (fun _ => rfl) (fun _ => rfl) (fun _ hs => hs)
      objs := hi.core.objs.congr rfl (fun hD => ⟨_, hD, rfl⟩) rfl (Nat.le_refl _) (fun _ => rfl)
      allocs := hi.core.allocs.withHead hA head'
      writable := fun c hw p hp =>
        (hi.core.writable c (hw.congr rfl) p hp).congr rfl rfl (fun _ hs => hs) }
  totals := hi.totals

theorem Opened.withHead (ho : Opened h b a fd head) (hA : h.mmapAllocators a = some A)
    (hle : head' ≤ (h.files fd.file).length) : Opened (h.withHead a A head') b a fd head' where
  kind := ho.kind
  allocator := by
    obtain ⟨A', hA', hfd, -⟩ := ho.allocator
    rw [hA] at hA'
    cases hA'
    exact ⟨_, update_self _ _ _, hfd, rfl⟩
  head := hle

namespace Lends

variable (m : Lends h R b a fd head ks)

include m

/-- **The window is given up**, from wherever the head has been moved to. -/
theorem giveUp (hf : h.Fits) (hA : h.mmapAllocators a = some A)
    (hle : head' ≤ (h.files fd.file).length) :
    Yields (trivialPureBufferClear b) (h.withHead a A head') (fun _ h' =>
      Lends h' (update R b []) b a fd head' [] ∧ Beside h h' R (update R b []) b) := by
  obtain ⟨B, hB, -⟩ := m.opened.getBuffer
  have hf' : (h.withHead a A head').Fits := ⟨hf.small, hf.allocs⟩
  have hi := m.inv.withHead hA head'
  have hB' : (h.withHead a A head').buffers b = some B := hB
  have ho := m.opened.withHead hA hle
  have o : OnFile (h.withHead a A head') a fd := m.onFile.congr rfl rfl (Nat.le_refl _)
  refine (trivialPureBufferClear_spec hi hf' hB').mono fun _ h' c => ?_
  have w := c.frame.world
  have hsame : ∀ {c' p}, c' ≠ b → p ∈ R c' → Same h h' p := fun hc hp =>
    have s := c.frame.same hc hp
    ⟨s.vec, s.data, s.bytes⟩
  refine ⟨?_, w.files, ⟨w.next, fun hM _ => w.mapping hM⟩, fun hc => c.frame.ring hc,
    fun hc => c.frame.buffer hc, hsame⟩
  exact
    { inv := c.inv
      opened := ho.along w c.core (congrFun c.frame.kind b)
      writable := m.writable
      others := fun {e} he hsome => by
        rw [c.frame.buffer he] at hsome
        obtain ⟨C, hC, hop⟩ := m.others he hsome
        exact ⟨C, (c.frame.buffer he).trans hC, hop⟩
      full := fun e p hp => by
        by_cases he : e = b
        · rw [he, update_self] at hp
          cases hp
        · rw [update_of_ne he] at hp
          rw [(hsame he hp).len]
          exact m.full e p hp
      ring := by rw [update_self]; rfl
      shows := fun k hk => by cases hk
      once := List.nodup_nil
      stretch := .nil _
      first := .inl rfl
      last := fun {l k} hl => by simp at hl
      onFile := o.along w c.core }

omit m in
/-- Without pages the head can be moved. -/
theorem moveHead (m : Lends h R b a fd head []) (hA : h.mmapAllocators a = some A)
    (hle : head' ≤ (h.files fd.file).length) : Lends (h.withHead a A head') R b a fd head' [] where
  inv := m.inv.withHead hA head'
  opened := m.opened.withHead hA hle
  writable := m.writable
  others := fun he hsome => m.others he hsome
  full := m.full
  ring := m.ring
  shows := fun k hk => by cases hk
  once := List.nodup_nil
  stretch := .nil _
  first := .inl rfl
  last := fun {l k} hl => by simp at hl
  onFile := m.onFile.congr rfl rfl (Nat.le_refl _)

/-! ## Calls on the mmap buffer -/

theorem rewind (hf : h.Fits) (len : Nat) :
    Yields (bufferRewind env b len) h (fun _ h' => Leaving (· ≠ b) False h h' R b a fd) := by
  obtain ⟨A, hA, -⟩ := m.opened.allocator
  have hle : head - min len head ≤ (h.files fd.file).length :=
    Nat.le_trans (Nat.sub_le _ _) m.opened.head
  refine Yields.of_eq (m.opened.bufferRewind_eq hA len) ?_
  refine Yields.bind (m.giveUp hf hA hle) fun _ h' hpost => yields_pure.mpr ?_
  exact ⟨_, _, _, hpost.1, hpost.2.spares, fun _ => hpost.2.files⟩

theorem seek (hs : env.Succeeds) (hf : h.Fits) (len : Nat) :
    Yields (bufferSeek env b len) h (fun _ h' => Leaving (· ≠ b) False h h' R b a fd) := by
  obtain ⟨A, hA, -⟩ := m.opened.allocator
  obtain ⟨n, hn⟩ : ∃ n, n = min len ((h.files fd.file).length - head) := ⟨_, rfl⟩
  have hhead := m.opened.head
  have hle : head + n ≤ (h.granted.files fd.file).length := by
    show head + n ≤ (h.files fd.file).length
    omega
  refine Yields.of_eq (m.opened.bufferSeek_eq hs hA hn) ?_
  have hf' : h.granted.Fits := hf.idle m.inv.core (Idle.granted h)
  refine Yields.bind (m.granted.giveUp hf' hA hle) fun _ h' hpost => yields_pure.mpr ?_
  have hbeside := (Beside.granted h R b).trans hpost.2
  exact ⟨_, _, _, hpost.1, hbeside.spares, fun _ => hbeside.files⟩

/-- `pb_buffer_clear` gives the window up before the head moves to the end of the file. -/
theorem clear (hs : env.Succeeds) (hf : h.Fits) :
    Yields (bufferClear env b) h (fun _ h' => Leaving (· ≠ b) False h h' R b a fd) := by
  obtain ⟨A, hA, -, hhead⟩ := m.opened.allocator
  have hgive := m.giveUp hf hA m.opened.head
  have hsame : h.withHead a A head = h := by
    rw [Heap.withHead, ← hhead, Heap.setMmapAllocator, ← hA, update_eq_self]
  rw [hsame] at hgive
  refine Yields.of_eq m.opened.bufferClear_eq (Yields.bind hgive fun _ g hpost => ?_)
  obtain ⟨m', hbeside⟩ := hpost
  obtain ⟨A', hA', -⟩ := m'.opened.allocator
  refine Yields.intro (m'.opened.allocatorClear hs hA') ?_
  have hclear := m'.granted.moveHead hA' (Nat.le_refl _)
  have hlast := hbeside.trans (Beside.granted g _ b)
  have hmoved : Beside h (g.granted.withHead a A' (g.files fd.file).length) R (update R b []) b :=
    { files := hlast.files
      maps := ⟨hlast.maps.next, hlast.maps.mapping⟩
      ring := hlast.ring
      buffer := hlast.buffer
      same := fun hc hp =>
        have s := hlast.same hc hp
        ⟨s.vec, s.data, s.bytes⟩ }
  exact ⟨_, _, _, hclear, hmoved.spares, fun _ => hmoved.files⟩

/-- **A call on the mmap buffer** keeps what is lent. -/
theorem mmapCall (hs : env.Succeeds) (hroom : h.Roomy) {op : MmapOp} (hop : op.Shares)
    (hv : op.Valid h b) (hc : op.MapsBlocks → ∀ d, ¬h.Uncounted b d) :
    Yields (execMmap env b op) h (fun _ h' => Leaving (· ≠ b) op.Appends h h' R b a fd) := by
  have hf := m.fits hroom
  have hreads : op.MapsBlocks → Yields (execMmap env b op) h (fun _ h' =>
      Leaving (· ≠ b) op.Appends h h' R b a fd) := fun hmaps => by
    refine (m.reads hs (m.ready hroom (hc hmaps)) hmaps hv).mono fun _ h' hpost => ?_
    obtain ⟨ks', R', hbeside, m', -⟩ := hpost
    exact ⟨R', head, ks', m', hbeside.spares, fun _ => hbeside.files⟩
  have hlong : ∀ {h' : Heap} {bs : List UInt8} {r : Nat}, op.Appends →
      Lengthens h h' b fd bs r → Leaving (· ≠ b) op.Appends h h' R b a fd := fun happ ap =>
    have hpost := m.lengthens ap
    ⟨R, head, ks, hpost.1, hpost.2, fun hn => absurd happ hn⟩
  have hstay : ∀ {h' : Heap}, Leaving (· ≠ b) False h h' R b a fd →
      Leaving (· ≠ b) op.Appends h h' R b a fd := fun hpost => by
    obtain ⟨R', head', ks', m', hspares, hfiles⟩ := hpost
    exact ⟨R', head', ks', m', hspares, fun _ => hfiles id⟩
  cases op with
  | writeData buf =>
      exact Yields.bind (m.opened.writeData hs buf) fun _ _ hpost =>
        yields_pure.mpr (hlong trivial hpost.2)
  | writeDataRef buf =>
      exact Yields.bind (m.opened.writeData hs buf) fun _ _ hpost =>
        yields_pure.mpr (hlong trivial hpost.2)
  | extend len =>
      exact Yields.bind (m.opened.extend hs len) fun _ _ hpost =>
        yields_pure.mpr (hlong trivial hpost.2)
  | reserve size =>
      exact Yields.bind (m.opened.reserve hs size) fun _ _ hpost =>
        yields_pure.mpr (hlong trivial hpost.2)
  | rewind len =>
      exact Yields.bind (m.rewind hf len) fun _ _ hpost => yields_pure.mpr (hstay hpost)
  | seek len =>
      exact Yields.bind (m.seek hs hf len) fun _ _ hpost => yields_pure.mpr (hstay hpost)
  | clear => exact Yields.bind (m.clear hs hf) fun _ _ hpost => yields_pure.mpr (hstay hpost)
  | getDataSize =>
      refine Yields.step (bufferGetDataSize_mmap hs.system m.opened) (yields_pure.mpr ?_)
      exact ⟨R, head, ks, m.granted, (Beside.granted h R b).spares, fun _ => rfl⟩
  | trim len => exact hop.elim
  | overwriteData buf => exact hop.elim
  | destroy => exact hop.elim
  | _ => exact hreads trivial

/-- **Every correct call** keeps what is lent, and leaves the other buffers. -/
theorem call (hs : env.Succeeds) (hroom : h.Roomy) {op : SharedOp} (hv : op.Valid h b)
    (hc : op.MapsBlocks h b → ∀ d, ¬h.Uncounted b d) :
    Yields (execShared env b op) h (fun _ h' =>
      Leaving (fun c => ¬op.Touches b c) op.Appends h h' R b a fd) := by
  cases op with
  | mmap op =>
      refine Yields.bind (m.mmapCall hs hroom hv.1 hv.2 hc) fun _ h' hpost => yields_pure.mpr ?_
      obtain ⟨R', head', ks', m', hspares, hfiles⟩ := hpost
      exact ⟨R', head', ks', m', hspares.mono fun _ => id, hfiles⟩
  | trivial op =>
      by_cases htake : op.TakesFrom h b
      · refine Yields.bind (m.takes hs (m.ready hroom (hc htake)) htake) fun _ h' hpost =>
          yields_pure.mpr ?_
        obtain ⟨R', head', ks', m', hspares, hfiles⟩ := hpost
        refine ⟨R', head', ks', m', hspares.mono fun c hn => ?_, hfiles⟩
        obtain ⟨htarget, hsource⟩ := not_or.mp hn
        exact ⟨fun he => hsource ⟨he, htake.takesOutOf⟩, fun he => htarget he.symm⟩
      · have hvalid : op.Valid h := hv.resolve_right htake
        refine Yields.bind (m.trivialCall hs (m.fits hroom) hvalid) fun _ h' hpost =>
          yields_pure.mpr ?_
        obtain ⟨R', m', hspares, hfiles⟩ := hpost
        exact ⟨R', head, ks, m', hspares.mono fun c hn he => hn (.inl he.symm), fun _ => hfiles⟩

end Lends

/-! ## Runs -/

/-- **A new mmap buffer** beside the buffers that are there. -/
theorem Sound.lends (s : Sound h R) (file : Nat) {openAction : MmapOpenAction}
    (closeAction : MmapCloseAction) (hw : openAction ≠ .read) :
    Lends (h.withMmap file openAction closeAction) R (h.next + 3) h.next ⟨file, openAction ≠ .read⟩
      0 [] where
  inv := s.inv.withMmap (s.plain _)
  opened := opened_withMmap h file openAction closeAction
  writable := decide_eq_true hw
  others := fun {e} he hsome => by
    rw [buffers_withMmap he] at hsome
    obtain ⟨B, hB, hop⟩ := s.isTrivial hsome
    exact ⟨B, (buffers_withMmap he).trans hB, hop⟩
  full := fun e p hp => by
    have hne := (addBuffer_withPlain h).notMem s.inv.core.links hp
    rw [Heap.lenOf, vecOf_withMmap hne]
    exact s.full e p hp
  ring := s.inv.core.links.dead ((addBuffer_withPlain h).buffer_none s.inv.core.links)
  shows := fun k hk => by cases hk
  once := List.nodup_nil
  stretch := .nil _
  first := .inl rfl
  last := fun {l k} hl => by simp at hl
  onFile :=
    { maps := fun {d t} ht hne => absurd (s.data_trivial ht) hne
      key := fun {d d' t t' off} ht _ hop _ => by
        rw [s.data_trivial ht] at hop
        cases hop }

theorem Sound.roomy_withMmap (s : Sound h R) (hr : h.Roomy) (file : Nat)
    (openAction : MmapOpenAction) (closeAction : MmapCloseAction) :
    (h.withMmap file openAction closeAction).Roomy where
  users := fun d => by
    have hadd := addBuffer_withPlain h
    have hrefs : h.withPlain.refs d = h.refs d :=
      Heap.refs_congr (hadd.dataOf s.inv.core.links) hadd.le (fun hp => s.inv.core.links.fresh hp) d
    have hsame : (h.withMmap file openAction closeAction).refs d = h.withPlain.refs d := rfl
    rw [hsame, hrefs]
    exact hr.users d
  blocks := fun a' => by
    have hzero : ¬0 < (h.withMmap file openAction closeAction).blocksMapped a' := by
      intro hpos
      rw [Heap.blocksMapped, Heap.mmapFieldsOf_fst] at hpos
      obtain ⟨d, -, hd⟩ := holders_pos_iff.mp hpos
      rw [Heap.allocatorOf, Option.bind_eq_some_iff] at hd
      obtain ⟨t, ht, hop⟩ := hd
      rw [s.data_trivial ht] at hop
      cases hop
    omega

/-- Where a run of correct calls has led to. -/
theorem SharedReachable.lends (hr : SharedReachable env b h) (hs : env.Succeeds) :
    (∃ R a fd head ks, Lends h R b a fd head ks) ∧ h.Roomy := by
  obtain ⟨g, file, openAction, closeAction, h₀, hg, hroom, hw, hcreate, hrun⟩ := hr
  obtain ⟨R₀, s⟩ := hg.sound
  rw [mmapBufferCreate_run hs] at hcreate
  cases hcreate
  induction hrun with
  | refl =>
      exact ⟨⟨_, _, _, _, _, s.lends file closeAction hw⟩,
        s.roomy_withMmap hroom file openAction closeAction⟩
  | tail _ hstep ih =>
      obtain ⟨⟨R, a, fd, head, ks, m⟩, hr⟩ := ih
      obtain ⟨op, r, c⟩ := hstep
      obtain ⟨r', h', hrun', R', head', ks', m', -⟩ := m.call hs hr c.valid c.counted
      rw [c.run] at hrun'
      cases hrun'
      exact ⟨⟨R', a, fd, head', ks', m'⟩, c.roomy⟩

end Pb
