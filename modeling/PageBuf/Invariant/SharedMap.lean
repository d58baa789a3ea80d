import PageBuf.Invariant.WindowCalls
import PageBuf.Invariant.Remove
import PageBuf.Model.SharedSystem

/-!
# SharedMap — the window of an mmap buffer that lends its pages

Trivial buffers may hold pages on mappings that the mmap buffer has given up.
Such a mapping stays in the data tree, and the next page for its block is made
on it. The lookup takes a reference for that page where the block is whole and
the page begins with it, or where a longer mapping replaces it.
-/

namespace Pb

open StateRun Function Ring RefCount

variable {env : Env} {h h' h₁ g : Heap} {R R' : Nat → List Nat} {F X l₁ l₂ : List Nat}
  {a b d e x file head size off start n r : Nat} {A : MmapAllocator} {B : Buffer} {D : Data}
  {fd : Fd} {k : Block} {ks ks' : List Block} {old : Option Nat} {v : DataVec} {bs : List UInt8}

/-! ## The mappings of the file -/

/-- The `pb_mmap_data` `d` and its mapping of a block of the file. -/
structure Heap.MapsBlock (h : Heap) (a : Nat) (fd : Fd) (d m off len : Nat) (obsolete : Bool) :
    Prop where
  shape : h.shapeOf d = some ⟨⟨⟨.mapped m, 0⟩, len⟩, .owned, .mmap a off obsolete⟩
  mapping : h.mappings m = some ⟨fd.file, off, len⟩
  block : mmapBaseSize ∣ off
  pos : 0 < len
  short : len ≤ mmapBaseSize
  stop : off + len ≤ (h.files fd.file).length

/-- All mapped data are blocks of the file, and of one block one at most is not
obsolete. -/
structure OnFile (h : Heap) (a : Nat) (fd : Fd) : Prop where
  maps : ∀ {d s}, h.shapeOf d = some s → s.operations ≠ .trivial →
    ∃ m off len obsolete, h.MapsBlock a fd d m off len obsolete
  key : ∀ {d d' s s' off}, h.shapeOf d = some s → h.shapeOf d' = some s' →
    s.operations = .mmap a off false → s'.operations = .mmap a off false → d = d'

theorem Heap.MapsBlock.mono {m len : Nat} {obsolete : Bool}
    (hm : h.MapsBlock a fd d m off len obsolete) (hs : h'.shapeOf d = h.shapeOf d)
    (hM : h'.mappings m = h.mappings m)
    (hf : (h.files fd.file).length ≤ (h'.files fd.file).length) :
    h'.MapsBlock a fd d m off len obsolete :=
  ⟨hs.trans hm.shape, hM.trans hm.mapping, hm.block, hm.pos, hm.short, Nat.le_trans hm.stop hf⟩

namespace OnFile

/-- What only takes data away keeps the rest where it is. -/
theorem along (o : OnFile h a fd) (w : World h h') (hc : Core h' R F X) : OnFile h' a fd where
  maps := fun {d s} hs hne => by
    have hold := w.mapped hs hne
    obtain ⟨m, off, len, ob, hm⟩ := o.maps hold hne
    refine ⟨m, off, len, ob, hm.mono (hs.trans hold.symm) ?_ (by rw [w.files])⟩
    obtain ⟨m', M, -, hbase, hM, -⟩ := hc.allocs.mapped (hs.trans (hold.symm.trans hm.shape)) rfl
    obtain rfl : m = m' := by simpa using hbase
    rw [hM, w.mapping hM]
  key := fun hs hs' hop hop' =>
    o.key (w.mapped hs (by simp [hop])) (w.mapped hs' (by simp [hop'])) hop hop'

theorem congr (o : OnFile h a fd) (hs : h'.shapeOf = h.shapeOf) (hM : h'.mappings = h.mappings)
    (hf : (h.files fd.file).length ≤ (h'.files fd.file).length) : OnFile h' a fd where
  maps := fun {d s} hd hne => by
    obtain ⟨m, off, len, ob, hm⟩ := o.maps (congrFun hs d ▸ hd) hne
    exact ⟨m, off, len, ob, hm.mono (congrFun hs d) (congrFun hM m) hf⟩
  key := by
    rw [hs]
    exact o.key

/-- A new mapping takes the place of the one of its block. -/
theorem newMapping {m : Nat} {M : Mapping} (o : OnFile h a fd) (hc : Core h R F X)
    (nm : NewMapping h h' a d m A M old) (hfile : M.file = fd.file)
    (hM : mmapBaseSize ∣ M.offset ∧ 0 < M.len ∧ M.len ≤ mmapBaseSize ∧
      M.offset + M.len ≤ (h.files fd.file).length)
    (hold : ∀ {e s}, h.shapeOf e = some s → s.operations = .mmap a M.offset false → old = some e) :
    OnFile h' a fd where
  maps := fun {e s} hs hne => by
    have hsize : (h.files fd.file).length ≤ (h'.files fd.file).length := by rw [nm.files]
    by_cases he : e = d
    · subst he
      refine ⟨m, M.offset, M.len, false, nm.shape_new, ?_, hM.1, hM.2.1, hM.2.2.1,
        Nat.le_trans hM.2.2.2 hsize⟩
      rw [nm.mappings, update_self, ← hfile]
    · obtain ⟨t, ht, rfl⟩ := nm.shape_old hs he
      have htne : t.operations ≠ .trivial := by
        intro htriv
        refine hne ?_
        split
        · exact DataClass.outdated_eq_trivial.mpr htriv
        · exact htriv
      obtain ⟨m', off, len, ob, hm⟩ := o.maps ht htne
      have hmm : m' ≠ m := by
        intro heq
        have hsome := hm.mapping
        rw [heq, nm.mapping_fresh hc.allocs] at hsome
        cases hsome
      refine ⟨m', off, len, if old = some e then true else ob, ⟨?_, ?_, hm.block, hm.pos, hm.short,
        Nat.le_trans hm.stop hsize⟩⟩
      · rw [nm.shape_other he, hm.shape]
        by_cases ho : old = some e <;> simp [ho, Shape.outdated, DataClass.outdated]
      · rw [nm.mappings, update_of_ne hmm, hm.mapping]
  key := fun {e e' s s' off'} hs hs' hop hop' => by
    -- what is not obsolete and not new was so before
    have hcur : ∀ {c t}, h'.shapeOf c = some t → t.operations = .mmap a off' false → c ≠ d →
        h.shapeOf c = some t ∧ old ≠ some c := by
      intro c t ht htop hc
      obtain ⟨t₀, ht₀, rfl⟩ := nm.shape_old ht hc
      by_cases ho : old = some c
      · exfalso
        rw [if_pos ho] at htop
        cases ht₀op : t₀.operations with
        | trivial => simp [ht₀op, DataClass.outdated] at htop
        | mmap a₀ off₀ ob₀ => simp [ht₀op, DataClass.outdated] at htop
      · rw [if_neg ho]
        exact ⟨ht₀, ho⟩
    have hnew : ∀ {c t}, h'.shapeOf c = some t → t.operations = .mmap a off' false → c ≠ d →
        off' ≠ M.offset := by
      intro c t ht htop hc heq
      obtain ⟨ht', ho⟩ := hcur ht htop hc
      exact ho (hold ht' (heq ▸ htop))
    have hoff : ∀ {t}, h'.shapeOf d = some t → t.operations = .mmap a off' false →
        off' = M.offset := by
      intro t ht htop
      rw [nm.shape_new] at ht
      cases ht
      exact (DataClass.mmap.inj htop).2.1.symm
    by_cases he : e = d
    · by_cases he' : e' = d
      · rw [he, he']
      · exact absurd (hoff (he ▸ hs) hop) (hnew hs' hop' he')
    · by_cases he' : e' = d
      · exact absurd (hoff (he' ▸ hs') hop') (hnew hs hop he)
      · exact o.key (hcur hs hop he).1 (hcur hs' hop' he').1 hop hop'

end OnFile

/-! ## The buffer that lends -/

/-- **The window** of the mmap buffer `b` among trivial buffers, which may hold pages on the
mappings of its file. -/
structure Lends (h : Heap) (R : Nat → List Nat) (b a : Nat) (fd : Fd) (head : Nat)
    (ks : List Block) : Prop where
  inv : Inv h R
  opened : Opened h b a fd head
  writable : fd.writable = true
  others : ∀ {e}, e ≠ b → (h.buffers e).isSome → h.IsTrivial e
  full : ∀ e, h.Full (R e)
  ring : R b = ks.map Block.page
  shows : ∀ k ∈ ks, h.Shows a fd.file k
  once : (ks.map Block.data).Nodup
  stretch : Stretch ks (h.files fd.file).length
  first : startOf ks head = head ∨ head < startOf ks head ∧ mmapBaseSize ∣ startOf ks head
  last : ∀ {l k}, ks = l ++ [k] → k.obsolete = false
  onFile : OnFile h a fd

/-- The blocks that only other buffers hold have room for `n` more users, and would be mapped with
a reference of their own. -/
def Heap.Ready (h : Heap) (a : Nat) (fd : Fd) (head : Nat) (ks : List Block) (n : Nat) : Prop :=
  ∀ d s off, h.shapeOf d = some s → s.operations = .mmap a off false →
    d ∉ ks.map Block.data → h.refs d + n ≤ 65534 ∧
      ¬(s.dataVec.len = mmapBaseSize ∧ off < head ∧ head < off + mmapBaseSize) ∧
      ¬(s.dataVec.len < mmapBaseSize ∧ off + s.dataVec.len = (h.files fd.file).length)

namespace Lends

variable (m : Lends h R b a fd head ks)

include m

theorem page_mem (hk : k ∈ ks) : k.page ∈ R b := by
  rw [m.ring]
  exact List.mem_map_of_mem hk

theorem page_ne (hk : k ∈ ks) : k.page ≠ b :=
  fun he => m.inv.core.links.notMem_self m.opened.isSome (he ▸ m.page_mem hk)

theorem offset_le (hk : k ∈ ks) : k.offset ≤ k.start := by
  rw [(m.stretch.fits k hk).offset]
  exact Nat.div_mul_le_self _ _

/-- What the tree holds is a block of the file. -/
theorem block_of_found (hD : h.datas d = some D) (hop : D.operations = .mmap a off false) :
    ∃ i len, h.MapsBlock a fd d i off len false ∧ D.dataVec = ⟨⟨.mapped i, 0⟩, len⟩ := by
  have hs := Heap.shapeOf_eq hD
  obtain ⟨i, off', len, ob, hm⟩ := m.onFile.maps hs (by simp [Data.shape, hop])
  have hshape := hm.shape
  rw [hs] at hshape
  have hsame := Option.some.inj hshape
  have hop' : D.operations = .mmap a off' ob := congrArg Shape.operations hsame
  have hvec : D.dataVec = ⟨⟨.mapped i, 0⟩, len⟩ := congrArg Shape.dataVec hsame
  rw [hop] at hop'
  obtain ⟨-, rfl, rfl⟩ := DataClass.mmap.inj hop'
  exact ⟨i, len, hm, hvec⟩

/-- A block of the window that is not obsolete is what the tree holds for its offset. -/
theorem data_of_found (hD : h.datas d = some D) (hop : D.operations = .mmap a off false)
    (hk : k ∈ ks) (hlive : k.obsolete = false) (hoff : k.offset = off) :
    k.data = d ∧ k.len = D.dataVec.len := by
  have hshape := (m.shows k hk).shape
  have hd : k.data = d := m.onFile.key hshape (Heap.shapeOf_eq hD) (by simp [hlive, hoff]) hop
  refine ⟨hd, ?_⟩
  rw [hd, Heap.shapeOf_eq hD] at hshape
  exact (congrArg (fun s => s.dataVec.len) (Option.some.inj hshape)).symm

theorem found_of_block (hA : h.mmapAllocators a = some A) (hk : k ∈ ks)
    (hlive : k.obsolete = false) : k.data ∈ A.dataTree := by
  obtain ⟨_, _, A', -, -, -, hA', hin⟩ := m.inv.core.allocs.mapped (m.shows k hk).shape rfl
  rw [hA] at hA'
  cases hA'
  exact hin hlive

/-- The blocks stay where only counters change. -/
theorem idle (i : Idle h g) (hi : Inv g R) : Lends g R b a fd head ks where
  inv := hi
  opened := m.opened.idle i
  writable := m.writable
  others := fun {e} he hs => by
    rw [← g.isSome_kindOf, i.kind, h.isSome_kindOf] at hs
    exact (m.others he hs).congr i.kind
  full := fun e p hp => by
    rw [Heap.lenOf_congr i.pages]
    exact m.full e p hp
  ring := m.ring
  shows := fun k hk => (m.shows k hk).idle i
  once := m.once
  stretch := by
    rw [i.files]
    exact m.stretch
  first := m.first
  last := m.last
  onFile := m.onFile.congr i.shape i.mappings (by rw [i.files])

theorem granted : Lends h.granted R b a fd head ks :=
  m.idle (Idle.granted h) ⟨m.inv.core.idle (Idle.granted h), m.inv.totals⟩

end Lends

/-! ## A reference for a page to come -/

theorem Core.get (hc : Core h R F X) (hD : h.datas d = some D) :
    Core (h.setData d (some { D with useCount := u16Inc D.useCount })) R F (d :: X) := by
  have hs : (h.setData d (some { D with useCount := u16Inc D.useCount })).shapeOf = h.shapeOf :=
    Heap.shape_recount hD rfl
  exact
    { links := hc.links.congr rfl rfl (fun _ => rfl) (fun _ => rfl) (Nat.le_refl _)
      views := hc.views.congr rfl rfl (fun _ => rfl) (fun _ => rfl) (fun _ he => hs ▸ he)
      objs := by
        refine hc.objs.recount hD rfl ?_ ?_ (fun e he => ?_) rfl (Nat.le_refl _)
        · rw [hc.objs.count hD, u16Inc_mod, Heap.count, Heap.count, List.count_cons_self]
          rfl
        · rw [Heap.count, List.count_cons_self]
          omega
        · rw [Heap.count, Heap.count, List.count_cons_of_ne he.symm]
          rfl
      allocs := hc.allocs.congr (Heap.mapsSame_of_shape hs) rfl rfl
        (Heap.allocRefs_congr (Heap.mapsSame_of_shape hs) rfl (Nat.le_refl _) hc.objs.freshData
          hc.links.buffer_fresh) (Nat.le_refl _)
      writable := hc.writable.congr rfl rfl rfl (fun _ he => by rwa [hs]) }

/-- Addresses are not used again: a mapping at an old one is the mapping that was there. -/
structure MapsStay (h h' : Heap) : Prop where
  next : h.next ≤ h'.next
  mapping : ∀ {i M}, h'.mappings i = some M → i < h.next → h.mappings i = some M

theorem MapsStay.refl (h : Heap) : MapsStay h h := ⟨Nat.le_refl _, fun hM _ => hM⟩

theorem MapsStay.trans (s : MapsStay h h') (s' : MapsStay h' h'') : MapsStay h h'' where
  next := Nat.le_trans s.next s'.next
  mapping := fun hM hi => s.mapping (s'.mapping hM (Nat.lt_of_lt_of_le hi s.next)) hi

theorem World.mapsStay (w : World h h') : MapsStay h h' := ⟨w.next, fun hM _ => w.mapping hM⟩

theorem Idle.mapsStay (i : Idle h h') : MapsStay h h' :=
  ⟨i.next, fun hM _ => by rwa [← i.mappings]⟩

/-- The data of the block `k` is in the hands of the function that makes its page, which is the
next object. The mapping may be new, and may have replaced another. -/
structure InHand (h h' : Heap) (R : Nat → List Nat) (b a : Nat) (fd : Fd) (head : Nat)
    (ks : List Block) (old : Option Nat) (k : Block) : Prop where
  core : Core h' R [] [k.data]
  pages : h'.pages = h.pages
  buffers : h'.buffers = h.buffers
  files : h'.files = h.files
  maps : MapsStay h h'
  page : k.page = h'.next
  opened : Opened h' b a fd head
  shows : ∀ k' ∈ ks, h'.Shows a fd.file (k'.replaced old)
  data : h'.MapsBlock a fd k.data k.mapping k.offset k.len k.obsolete
  live : k.obsolete = false
  new : k.data ∉ ks.map Block.data
  few : h'.count [k.data] k.data ≤ 65535
  onFile : OnFile h' a fd
  older : ∀ {e s off}, h'.shapeOf e = some s → s.operations = .mmap a off false → e ≠ k.data →
    h.shapeOf e = some s
  same : ∀ {p}, (h.pages p).isSome → Same h h' p

/-- The lookup would use the mapping `d` as it is, without another reference. -/
def Heap.UsedAsIs (h : Heap) (a : Nat) (fd : Fd) (head d : Nat) : Prop :=
  ∃ s off, h.shapeOf d = some s ∧ s.operations = .mmap a off false ∧
    (s.dataVec.len = mmapBaseSize ∧ off < head ∧ head < off + mmapBaseSize ∨
      s.dataVec.len < mmapBaseSize ∧ off + s.dataVec.len = (h.files fd.file).length)

/-- The mapping of the block `k` is only in other buffers, and is used as it is. -/
structure KeptBlock (h : Heap) (a : Nat) (fd : Fd) (head : Nat) (ks : List Block) (k : Block) :
    Prop where
  page : k.page = h.next
  data : h.MapsBlock a fd k.data k.mapping k.offset k.len false
  new : k.data ∉ ks.map Block.data
  whole : k.len = mmapBaseSize ∧ k.offset < head ∧ head < k.offset + mmapBaseSize ∨
    k.len < mmapBaseSize ∧ k.offset + k.len = (h.files fd.file).length

theorem KeptBlock.usedAsIs (hk : KeptBlock h a fd head ks k) : h.UsedAsIs a fd head k.data :=
  ⟨_, k.offset, hk.data.shape, rfl, hk.whole⟩

theorem Heap.MapsBlock.not_usedAsIs {i len : Nat} (hm : h.MapsBlock a fd d i off len false)
    (hlen : len = mmapBaseSize) (hhead : head ≤ off ∨ off + mmapBaseSize ≤ head) :
    ¬h.UsedAsIs a fd head d := by
  intro hu
  obtain ⟨s, off', hs, hop, hcond⟩ := hu
  rw [hm.shape] at hs
  cases hs
  cases hop
  dsimp only at hcond
  omega

theorem Heap.Ready.not_kept (hr : h.Ready a fd head ks n) : ¬KeptBlock h a fd head ks k := by
  intro hk
  obtain ⟨-, hwhole, hrest⟩ := hr _ _ _ hk.data.shape rfl hk.new
  exact hk.whole.elim hwhole hrest

theorem Mapped.not_usedAsIs {c : Nat → Nat} (mp : Mapped h h₁ a off size A fd old)
    (ho : Objs h c) : ¬h.UsedAsIs a fd head (h.next + 1) := by
  intro hu
  obtain ⟨s, -, hs, -⟩ := hu
  rw [mp.mapping.data_fresh ho] at hs
  cases hs

/-- The mappings that only other buffers have pages on can be counted. -/
def Heap.Few (h : Heap) (a : Nat) (ks : List Block) : Prop :=
  ∀ d s off, h.shapeOf d = some s → s.operations = .mmap a off false →
    d ∉ ks.map Block.data → h.refs d ≤ 65534

theorem Heap.Ready.few (hr : h.Ready a fd head ks n) : h.Few a ks :=
  fun d s off hs hop hd => Nat.le_trans (Nat.le_add_right _ n) (hr d s off hs hop hd).1

namespace Lends

variable (m : Lends h R b a fd head ks)

include m

/-- A mapping that is there has got another reference. -/
theorem inHand_held {i len : Nat} (hD : h.datas d = some D)
    (hm : h.MapsBlock a fd d i off len false) (hnew : d ∉ ks.map Block.data)
    (hfew : h.refs d ≤ 65534) (start : Nat) :
    InHand h (h.setData d (some { D with useCount := u16Inc D.useCount })) R b a fd head ks none
      ⟨h.next, d, i, off, len, start, false⟩ := by
  have hs : (h.setData d (some { D with useCount := u16Inc D.useCount })).shapeOf = h.shapeOf :=
    Heap.shape_recount hD rfl
  exact
    { core := m.inv.core.get hD
      pages := rfl, buffers := rfl, files := rfl, maps := ⟨Nat.le_refl _, fun hM _ => hM⟩
      page := rfl
      opened := { m.opened with }
      shows := fun k hk => by
        have hk' := m.shows k hk
        rw [Block.replaced_none]
        exact ⟨hk'.data, (congrFun hs _).trans hk'.shape, hk'.mapping, hk'.vec⟩
      data := hm.mono (congrFun hs d) rfl (Nat.le_refl _)
      live := rfl
      new := hnew
      few := by
        rw [Heap.count, List.count_cons_self]
        exact Nat.succ_le_succ hfew
      onFile := m.onFile.congr hs rfl (Nat.le_refl _)
      older := fun he _ _ => congrFun hs _ ▸ he
      same := fun _ => ⟨rfl, rfl, rfl⟩ }

/-- A page keeps its bytes when a block is mapped. -/
theorem same_mapped {i : Nat} {M : Mapping} (nm : NewMapping h h' a d i A M old) {p : Nat}
    (hp : (h.pages p).isSome) : Same h h' p where
  vec := congrFun (Heap.vecOf_congr nm.pages) p
  data := congrFun (Heap.dataOf_congr nm.pages) p
  bytes := by
    have hc := m.inv.core
    rw [Heap.pageBytes, Heap.pageBytes, Heap.lenOf_congr nm.pages, Heap.vecOf_congr nm.pages]
    by_cases hb : (h.buffers p).isSome
    · rw [(hc.views.sentinel hb).2]
      rfl
    · obtain ⟨e, he⟩ := Option.isSome_iff_exists.mp
        (hc.views.data hp (Option.not_isSome_iff_eq_none.mp hb))
      obtain ⟨s, hs⟩ := hc.data_live he
      have hne := nm.region_ne hc.objs hc.allocs hs
      rw [← hc.views.region he hs] at hne
      refine Heap.bytes_congr fun i => ?_
      cases hr : (h.vecOf p).base.region with
      | mapped j =>
          have hji : j ≠ _ := fun hj => hne (hr.trans (congrArg Region.mapped hj))
          simp only [Heap.byteAt, nm.mappings, update_of_ne hji, nm.files, nm.mem]
      | null => simp only [Heap.byteAt, nm.mem]
      | heap n => simp only [Heap.byteAt, nm.mem]
      | caller n => simp only [Heap.byteAt, nm.mem]

/-- A mapping has been made for the block. -/
theorem inHand_mapped (mp : Mapped h h₁ a off size A fd old)
    (hsize : size = (h.files fd.file).length) (hlt : off < size) (hdvd : mmapBaseSize ∣ off)
    (hold : ∀ {e s}, h.shapeOf e = some s → s.operations = .mmap a off false → old = some e)
    (start : Nat) : InHand h h₁ R b a fd head ks old
      ⟨h.next + 2, h.next + 1, h.next, off, mmapLenOf size off, start, false⟩ := by
  have hc := m.inv.core
  have nm := mp.mapping
  have hlen := mmapLenOf_eq (Nat.le_of_lt hlt)
  have hM : mmapBaseSize ∣ off ∧ 0 < mmapLenOf size off ∧ mmapLenOf size off ≤ mmapBaseSize ∧
      off + mmapLenOf size off ≤ (h.files fd.file).length := by
    rw [hlen, ← hsize]
    simp only [mmapBaseSize] at hdvd ⊢
    omega
  have hdata : ∀ k ∈ ks, k.data ≠ h.next + 1 := by
    intro k hk
    have := hc.objs.freshData (d := k.data) (by rw [(m.shows k hk).shape]; rfl)
    omega
  have hmapping : ∀ k ∈ ks, k.mapping ≠ h.next := by
    intro k hk
    have := hc.allocs.freshMapping (m := k.mapping) (by rw [(m.shows k hk).mapping]; rfl)
    omega
  have hzero : h.refs (h.next + 1) = 0 := by
    have hdead : ¬0 < h.count [] (h.next + 1) := by
      rw [← hc.objs.live, nm.data_fresh hc.objs]
      simp
    simpa [Heap.count] using hdead
  exact
    { core := nm.core hc
      pages := nm.pages, buffers := nm.buffers, files := nm.files
      maps := ⟨nm.le, fun {i M} hM hi => by
        have hne : i ≠ h.next := Nat.ne_of_lt hi
        rwa [nm.mappings, update_of_ne hne] at hM⟩
      page := mp.next.symm
      opened :=
        { kind := (congrFun nm.kind b).trans m.opened.kind
          allocator := by
            obtain ⟨A₀, hA₀, hfd, hhead⟩ := m.opened.allocator
            rw [nm.allocator] at hA₀
            cases hA₀
            exact ⟨_, (congrFun nm.mmapAllocators a).trans (update_self _ _ _), hfd, hhead⟩
          head := by
            rw [nm.files]
            exact m.opened.head }
      shows := fun k hk => by
        have hk' := m.shows k hk
        refine ⟨?_, ?_, ?_, ?_⟩
        · rw [Block.page_replaced, Block.data_replaced, Heap.dataOf_congr nm.pages, hk'.data]
        · rw [Block.data_replaced, nm.shape_other (hdata k hk), hk'.shape]
          unfold Block.replaced
          by_cases ho : old = some k.data
          · simp [ho, Shape.outdated, DataClass.outdated]
          · simp [ho]
        · rw [nm.mappings]
          unfold Block.replaced
          split <;> rw [update_of_ne (hmapping k hk), hk'.mapping]
        · rw [Block.page_replaced, Block.start_replaced, Block.stop_replaced,
            Block.offset_replaced, Heap.vecOf_congr nm.pages, hk'.vec]
          unfold Block.replaced
          split <;> rfl
      data := by
        refine ⟨nm.shape_new, ?_, hM.1, hM.2.1, hM.2.2.1, ?_⟩
        · rw [nm.mappings, update_self]
        · rw [nm.files]
          exact hM.2.2.2
      live := rfl
      new := fun hd => by
        obtain ⟨k, hk, he⟩ := List.mem_map.mp hd
        exact hdata k hk he
      few := by
        have hrefs : h₁.refs (h.next + 1) = h.refs (h.next + 1) :=
          Heap.refs_congr (Heap.dataOf_congr nm.pages) nm.le hc.links.fresh _
        rw [Heap.count, List.count_cons_self, List.count_nil, hrefs, hzero]
        omega
      onFile := m.onFile.newMapping hc nm rfl hM hold
      older := fun {e s off'} he hop hne => by
        obtain ⟨t, ht, rfl⟩ := nm.shape_old he hne
        by_cases ho : old = some e
        · rw [if_pos ho] at hop
          cases htop : t.operations with
          | trivial => simp [htop, DataClass.outdated] at hop
          | mmap a₀ off₀ ob₀ => simp [htop, DataClass.outdated] at hop
        · rw [if_neg ho]
          exact ht
      same := fun hp => m.same_mapped nm hp }

/-! ## What the lookup finds -/

/-- What the tree holds for the block is in the tree, where the lookup would have found it. -/
theorem absent_found (hA : h.mmapAllocators a = some A)
    (habsent : ∀ d ∈ A.dataTree, ∀ s, h.shapeOf d = some s → s.operations ≠ .mmap a off false)
    {s : Shape} (hs : h.shapeOf e = some s) : s.operations ≠ .mmap a off false := by
  intro hop
  obtain ⟨_, _, A', -, -, -, hA', hin⟩ := m.inv.core.allocs.mapped hs hop
  rw [hA] at hA'
  cases hA'
  exact habsent e (hin rfl) s hs hop

/-- A page on the mapping of its block, which is there. -/
theorem mem_of_data {i len : Nat} (hm : h.MapsBlock a fd d i off len false)
    (hd : d ∈ ks.map Block.data) :
    ∃ k ∈ ks, k.data = d ∧ k.offset = off ∧ k.len = len ∧ k.obsolete = false := by
  obtain ⟨k, hk, rfl⟩ := List.mem_map.mp hd
  have hshape := (m.shows k hk).shape
  rw [hm.shape] at hshape
  simp only [Option.some.injEq, Shape.mk.injEq, DataVec.mk.injEq, DataClass.mmap.injEq] at hshape
  exact ⟨k, hk, rfl, hshape.2.2.2.1.symm, hshape.1.2.symm, hshape.2.2.2.2.symm⟩

/-- **The page behind the window**: its data is new, or was held by other buffers only. -/
theorem lookup_forward_cases (hs : env.Succeeds) (hfew : h.Few a ks)
    (hA : h.mmapAllocators a = some A) (hfd : A.fileFd = some fd)
    (hlt : stopOf ks head < (h.files fd.file).length) :
    ∃ h₁ old k, mmapAllocatorMapBlock env a (mmapOffsetOf (stopOf ks head)) (stopOf ks head)
        (h.files fd.file).length h = .ok (some (k.data, k.len), h₁) ∧
      k.start = stopOf ks head ∧ k.Fits (h.files fd.file).length ∧
      (InHand h h₁ R b a fd head ks old k ∧ ¬h.UsedAsIs a fd head k.data ∧
          (∀ l k', ks = l ++ [k'] → k.offset = k'.offset → (k'.replaced old).obsolete = true) ∨
        h₁ = h ∧ KeptBlock h a fd head ks k) := by
  obtain ⟨off, hoff⟩ : ∃ off, off = mmapOffsetOf (stopOf ks head) := ⟨_, rfl⟩
  have hle : off ≤ stopOf ks head := hoff ▸ Nat.div_mul_le_self _ _
  have hblock : stopOf ks head < off + mmapBaseSize := by
    simp only [hoff, mmapOffsetOf, mmapBaseSize]
    omega
  have hdvd : mmapBaseSize ∣ off := hoff ▸ Nat.dvd_mul_left _ _
  have hpos : 0 < mmapLenOf (h.files fd.file).length off := by
    rw [mmapLenOf_eq (by omega)]
    simp only [mmapBaseSize]
    omega
  have hlookup := mmapAllocatorMapBlock_run hs m.inv.core hA hfd m.writable (stopOf ks head) hpos
  rw [← hoff]
  generalize mmapAllocatorMapBlock env a _ _ _ h = r at hlookup
  cases hlookup with
  | created h₁ absent mapped =>
      refine ⟨h₁, none, _, rfl, rfl, Block.fits_mapped hlt hoff,
        .inl ⟨m.inHand_mapped mapped rfl (by omega) hdvd (fun he hop => ?_) _,
          mapped.not_usedAsIs m.inv.core.objs, fun l k' hl he => ?_⟩⟩
      · exact absurd hop (m.absent_found hA absent he)
      · have hk' : k' ∈ ks := by simp [hl]
        refine absurd ?_ (m.absent_found hA absent (m.shows k' hk').shape)
        rw [← he, m.last hl]
  | held d D found data operations long =>
      obtain ⟨i, len, hm, hvec⟩ := m.block_of_found data operations
      have hDlen : D.dataVec.len = len := by rw [hvec]
      rw [hDlen] at long ⊢
      have hshort := hm.short
      have hfull : off = stopOf ks head ∧ len = mmapBaseSize := by omega
      -- the window ends before the block begins
      have hbefore : ∀ k ∈ ks, k.offset ≠ off := by
        intro k hk he
        have hstop := m.stretch.stop_le hk head
        have hstart := (m.stretch.fits k hk).start
        have hkoff := m.offset_le hk
        omega
      have hnew : d ∉ ks.map Block.data := by
        intro hd
        obtain ⟨k, hk, -, hkoff, -⟩ := m.mem_of_data hm hd
        exact hbefore k hk hkoff
      have hroom := hfew _ _ _ hm.shape rfl hnew
      have hand := m.inHand_held data hm hnew hroom (stopOf ks head)
      have hhead : head ≤ off := by
        have hfirst := m.stretch.start_le_stop head
        rcases m.first with he | ⟨hlt', -⟩ <;> omega
      refine ⟨_, none, _, rfl, rfl, ?_, .inl ⟨hand, hm.not_usedAsIs hfull.2 (.inl hhead), ?_⟩⟩
      · refine ⟨hoff, hshort, ?_, hm.stop⟩
        show stopOf ks head < off + len
        omega
      · intro l k' hl he
        exact absurd he.symm (hbefore k' (by simp [hl]))
  | extended h₁ d D found data operations short grown mapped =>
      refine ⟨h₁, some d, _, rfl, rfl, Block.fits_mapped hlt hoff,
        .inl ⟨m.inHand_mapped mapped rfl (by omega) hdvd (fun he hop => ?_) _,
          mapped.not_usedAsIs m.inv.core.objs, fun l k' hl he => ?_⟩⟩
      · exact congrArg some (m.onFile.key (Heap.shapeOf_eq data) he operations hop)
      · have hd := (m.data_of_found data operations (k := k') (by simp [hl]) (m.last hl) he.symm).1
        rw [Block.replaced, hd, if_pos rfl]
  | kept d D found data operations short same =>
      obtain ⟨i, len, hm, hvec⟩ := m.block_of_found data operations
      have hDlen : D.dataVec.len = len := by rw [hvec]
      rw [hDlen] at short same ⊢
      have hshort := hm.short
      have hstop := hm.stop
      have hnew : d ∉ ks.map Block.data := by
        intro hd
        -- the last page ends with its mapping, so the file has grown
        obtain ⟨k, hk, -, hkoff, hklen, hlive⟩ := m.mem_of_data hm hd
        have hend : k.offset = mmapOffsetOf (stopOf ks head) := hkoff.trans hoff
        obtain ⟨l, hl⟩ := m.stretch.last_of_offset hk hlive hend
        have hend : stopOf ks head = k.offset + k.len := by
          rw [hl, stopOf_concat]
          rfl
        omega
      have hwhole : len = mmapBaseSize → off < head ∧ head < off + mmapBaseSize := by
        intro hfull
        rcases List.eq_nil_or_concat' ks with hnil | ⟨l, k', hl⟩
        · rw [hnil, stopOf_nil] at hblock short
          omega
        · -- the last page lies in the same block, but is not as long
          have hk' : k' ∈ ks := by simp [hl]
          have hfit := m.stretch.fits k' hk'
          have hend : stopOf ks head = k'.stop := by rw [hl, stopOf_concat]
          have hsame : k'.offset = off := by
            have h₁ := hfit.offset
            have h₂ := hfit.start
            have h₃ := hfit.len
            unfold Block.stop at *
            simp only [mmapOffsetOf, mmapBaseSize] at *
            omega
          have hdata := (m.data_of_found data operations hk' (m.last hl) hsame).1
          exact absurd (hdata ▸ List.mem_map_of_mem hk') hnew
      refine ⟨h, none, ⟨h.next, d, i, off, len, stopOf ks head, false⟩, rfl, rfl, ?_,
        .inr ⟨rfl, rfl, hm, hnew, ?_⟩⟩
      · refine ⟨hoff, hshort, ?_, hstop⟩
        show stopOf ks head < off + len
        by_cases hfull : len = mmapBaseSize <;> omega
      · by_cases hfull : len = mmapBaseSize
        · exact .inl ⟨hfull, hwhole hfull⟩
        · exact .inr ⟨Nat.lt_of_le_of_ne hshort hfull, by dsimp only; omega⟩

/-- Where what may be mapped is counted, the data is in hand. -/
theorem lookup_forward (hs : env.Succeeds) (hr : h.Ready a fd head ks n)
    (hA : h.mmapAllocators a = some A) (hfd : A.fileFd = some fd)
    (hlt : stopOf ks head < (h.files fd.file).length) :
    ∃ h₁ old k, mmapAllocatorMapBlock env a (mmapOffsetOf (stopOf ks head)) (stopOf ks head)
        (h.files fd.file).length h = .ok (some (k.data, k.len), h₁) ∧
      InHand h h₁ R b a fd head ks old k ∧ k.start = stopOf ks head ∧
      k.Fits (h.files fd.file).length ∧
      ∀ l k', ks = l ++ [k'] → k.offset = k'.offset → (k'.replaced old).obsolete = true := by
  obtain ⟨h₁, old, k, hrun, hstart, hfit, hcase⟩ := m.lookup_forward_cases hs hr.few hA hfd hlt
  rcases hcase with ⟨i, -, hlast⟩ | ⟨-, hk⟩
  · exact ⟨h₁, old, k, hrun, i, hstart, hfit, hlast⟩
  · exact absurd hk hr.not_kept

/-- The window, or the end of the file, is in the file. -/
theorem first_le : (ks.head?.map Block.start).getD (h.files fd.file).length
    ≤ (h.files fd.file).length := by
  cases hks : ks with
  | nil => exact Nat.le_refl _
  | cons k l =>
      have hfit := m.stretch.fits k (by simp [hks])
      have hstart := hfit.start
      have hstop := hfit.stop
      show k.start ≤ _
      omega

/-- **The page before the window**, which ends at `cur`. -/
theorem lookup_backward_cases {cur : Nat} (hs : env.Succeeds) (hfew : h.Few a ks)
    (hA : h.mmapAllocators a = some A) (hfd : A.fileFd = some fd)
    (hcur : cur = (ks.head?.map Block.start).getD (h.files fd.file).length)
    (hdvd : mmapBaseSize ∣ off) (hlt : off < cur) (hle : cur ≤ off + mmapBaseSize)
    (hwhole : ks ≠ [] → cur = off + mmapBaseSize)
    (hstart : start = if off > head then off else head) (hstartcur : start < cur) :
    ∃ h₁ old k, mmapAllocatorMapBlock env a off start (h.files fd.file).length h
        = .ok (some (k.data, k.len), h₁) ∧
      k.start = start ∧ k.offset = off ∧
      (InHand h h₁ R b a fd head ks old k ∧ ¬h.UsedAsIs a fd head k.data ∧ k.stop = cur ∧
          k.Fits (h.files fd.file).length ∧ ks.map (Block.replaced old) = ks ∨
        h₁ = h ∧ KeptBlock h a fd head ks k) := by
  have hsize : cur ≤ (h.files fd.file).length := hcur ▸ m.first_le
  have hin : off ≤ start ∧ off = mmapOffsetOf start := by
    simp only [mmapOffsetOf, mmapBaseSize] at *
    split at hstart <;> omega
  have hlenOf := mmapLenOf_eq (show off ≤ (h.files fd.file).length by omega)
  have hpos : 0 < mmapLenOf (h.files fd.file).length off := by
    rw [hlenOf]
    simp only [mmapBaseSize]
    omega
  have hend : ks = [] → cur = (h.files fd.file).length := by
    intro hnil
    rw [hcur, hnil]
    rfl
  have hstop : off + mmapLenOf (h.files fd.file).length off = cur := by
    rw [hlenOf]
    by_cases hnil : ks = []
    · have := hend hnil
      omega
    · have := hwhole hnil
      omega
  -- every block of the window begins behind the one that is looked up
  have hbehind : ∀ k ∈ ks, k.offset ≠ off := by
    intro k hk he
    have hfirst := m.stretch.start_le hk head
    have hne : ks ≠ [] := List.ne_nil_of_mem hk
    obtain ⟨k', l, rfl⟩ := List.exists_cons_of_ne_nil hne
    have hcur' : cur = k'.start := hcur
    have hfit := (m.stretch.fits k hk).offset
    have := hwhole hne
    rw [startOf_cons] at hfirst
    simp only [mmapOffsetOf, mmapBaseSize] at *
    omega
  have hnew : ∀ {d i len}, h.MapsBlock a fd d i off len false → d ∉ ks.map Block.data := by
    intro d i len hm hd
    obtain ⟨k, hk, -, hkoff, -⟩ := m.mem_of_data hm hd
    exact hbehind k hk hkoff
  have hlookup := mmapAllocatorMapBlock_run hs m.inv.core hA hfd m.writable start hpos
  generalize mmapAllocatorMapBlock env a _ _ _ h = r at hlookup
  cases hlookup with
  | created h₁ absent mapped =>
      refine ⟨h₁, none, _, rfl, rfl, rfl,
        .inl ⟨m.inHand_mapped mapped rfl (by omega) hdvd (fun he hop => ?_) _,
          mapped.not_usedAsIs m.inv.core.objs, hstop,
          Block.fits_mapped (by omega) hin.2, by simp⟩⟩
      exact absurd hop (m.absent_found hA absent he)
  | held d D found data operations long =>
      obtain ⟨i, len, hm, hvec⟩ := m.block_of_found data operations
      have hDlen : D.dataVec.len = len := by rw [hvec]
      rw [hDlen] at long ⊢
      have hshort := hm.short
      have hmstop := hm.stop
      have hfull : off + len = cur := by
        by_cases hnil : ks = []
        · have := hend hnil
          omega
        · have := hwhole hnil
          omega
      have hroom := hfew _ _ _ hm.shape rfl (hnew hm)
      refine ⟨_, none, _, rfl, rfl, rfl,
        .inl ⟨m.inHand_held data hm (hnew hm) hroom start,
          hm.not_usedAsIs (by omega) (by split at hstart <;> omega), hfull, ?_, by simp⟩⟩
      refine ⟨hin.2, hshort, ?_, hmstop⟩
      show start < off + len
      omega
  | extended h₁ d D found data operations short grown mapped =>
      obtain ⟨i, len, hm, hvec⟩ := m.block_of_found data operations
      refine ⟨h₁, some d, _, rfl, rfl, rfl,
        .inl ⟨m.inHand_mapped mapped rfl (by omega) hdvd (fun he hop => ?_) _,
          mapped.not_usedAsIs m.inv.core.objs, hstop,
          Block.fits_mapped (by omega) hin.2, ?_⟩⟩
      · exact congrArg some (m.onFile.key (Heap.shapeOf_eq data) he operations hop)
      · refine (List.map_congr_left fun k hk => ?_).trans (List.map_id ks)
        refine if_neg fun he => hnew hm ?_
        rw [Option.some.inj he]
        exact List.mem_map_of_mem hk
  | kept d D found data operations short same =>
      obtain ⟨i, len, hm, hvec⟩ := m.block_of_found data operations
      have hDlen : D.dataVec.len = len := by rw [hvec]
      rw [hDlen] at short same ⊢
      have hshort := hm.short
      have hmstop := hm.stop
      refine ⟨h, none, ⟨h.next, d, i, off, len, start, false⟩, rfl, rfl, rfl,
        .inr ⟨rfl, rfl, hm, hnew hm, ?_⟩⟩
      dsimp only
      by_cases hfull : len = mmapBaseSize
      · refine .inl ⟨hfull, ?_⟩
        split at hstart <;> omega
      · exact .inr ⟨by omega, by omega⟩

/-- Where what may be mapped is counted, the data is in hand. -/
theorem lookup_backward {cur : Nat} (hs : env.Succeeds) (hr : h.Ready a fd head ks n)
    (hA : h.mmapAllocators a = some A) (hfd : A.fileFd = some fd)
    (hcur : cur = (ks.head?.map Block.start).getD (h.files fd.file).length)
    (hdvd : mmapBaseSize ∣ off) (hlt : off < cur) (hle : cur ≤ off + mmapBaseSize)
    (hwhole : ks ≠ [] → cur = off + mmapBaseSize)
    (hstart : start = if off > head then off else head) (hstartcur : start < cur) :
    ∃ h₁ old k, mmapAllocatorMapBlock env a off start (h.files fd.file).length h
        = .ok (some (k.data, k.len), h₁) ∧
      InHand h h₁ R b a fd head ks old k ∧ k.start = start ∧ k.offset = off ∧ k.stop = cur ∧
      k.Fits (h.files fd.file).length ∧ ks.map (Block.replaced old) = ks := by
  obtain ⟨h₁, old, k, hrun, hkstart, hkoff, hcase⟩ :=
    m.lookup_backward_cases hs hr.few hA hfd hcur hdvd hlt hle hwhole hstart hstartcur
  rcases hcase with ⟨i, -, hstop, hfit, hsame⟩ | ⟨-, hk⟩
  · exact ⟨h₁, old, k, hrun, i, hkstart, hkoff, hstop, hfit, hsame⟩
  · exact absurd hk hr.not_kept

end Lends

/-! ## The page -/

/-- The page of the block `k` is there and not linked yet. -/
structure NewLent (h h' : Heap) (R : Nat → List Nat) (b a : Nat) (fd : Fd) (head : Nat)
    (ks : List Block) (old : Option Nat) (k : Block) : Prop
    extends NewBlock h h' R b a fd head ks old k where
  maps : MapsStay h h'
  live : k.obsolete = false
  onFile : OnFile h' a fd
  older : ∀ {e s off}, h'.shapeOf e = some s → s.operations = .mmap a off false → e ≠ k.data →
    h.shapeOf e = some s
  same : ∀ {p}, (h.pages p).isSome → Same h h' p
  refs : ∀ e, e ≠ k.data → h'.refs e = h.refs e

/-- The data in hand, whose counter has not come round. -/
theorem InHand.counted (i : InHand h h₁ R b a fd head ks old k) :
    ∃ D, h₁.datas k.data = some D ∧ D.dataVec = ⟨⟨.mapped k.mapping, 0⟩, k.len⟩ ∧
      D.useCount ≤ 65535 ∧ D.useCount ≠ 0 := by
  obtain ⟨D, hD⟩ := Heap.exists_data (h := h₁) (d := k.data) (by rw [i.data.shape]; rfl)
  have hshape := i.data.shape
  rw [Heap.shapeOf_eq hD] at hshape
  have hfew := i.few
  have hpos : 0 < h₁.count [k.data] k.data := by
    rw [Heap.count, List.count_cons_self]
    omega
  have huse := i.core.objs.count hD
  rw [Nat.mod_eq_of_lt (by omega)] at huse
  exact ⟨D, hD, congrArg Shape.dataVec (Option.some.inj hshape), by omega, by omega⟩

theorem InHand.page_run (i : InHand h h₁ R b a fd head ks old k) (hs : env.Succeeds)
    (distance len : Nat) : mmapAllocatorMapPage env k.data distance len h₁
      = .ok (some k.page, h₁.newPage ⟨⟨.mapped k.mapping, distance⟩, len⟩ k.data) := by
  obtain ⟨D, hD, hvec, hle, hpos⟩ := i.counted
  rw [mmapAllocatorMapPage_run hD hle (hs.memory _) hpos, hvec, i.page]
  simp [Ptr.add]

theorem InHand.newLent (i : InHand h h₁ R b a fd head ks old k) (m : Lends h R b a fd head ks)
    (v : DataVec) (hv : v = ⟨⟨.mapped k.mapping, k.start - k.offset⟩, k.stop - k.start⟩) :
    NewLent h (h₁.newPage v k.data) R b a fd head ks old k := by
  obtain ⟨D, hD, hvec, hle, -⟩ := i.counted
  have hc := m.inv.core
  have hfresh : ∀ {p}, (h.pages p).isSome → p ≠ k.page := by
    intro p hp
    have hlt := hc.links.fresh hp
    have hle := i.maps.next
    rw [i.page]
    omega
  have hcore := i.core.newPage (v := v) hD hle (by rw [hv, hvec]) i.few
  have hdataOf : (h₁.newPage v k.data).dataOf = update h₁.dataOf k.page (some k.data) := by
    rw [Heap.dataOf_newPage, i.page]
  have hvecOf : (h₁.newPage v k.data).vecOf = update h₁.vecOf k.page v := by
    rw [Heap.vecOf_newPage, i.page]
  have hpage : ∀ {k'}, k' ∈ ks → k'.page ≠ k.page := by
    intro k' hk'
    refine hfresh (hc.links.node_live m.opened.isSome (List.mem_cons_of_mem b (m.page_mem hk')))
  refine { core := ?_, totals := ?_, buffers := i.buffers, files := i.files, opened := ?_,
           shows := ?_, new := ?_, data := i.new, maps := ?_, live := i.live, onFile := ?_,
           older := i.older, same := ?_, refs := ?_ }
  · rw [i.page]
    exact hcore
  · intro c C hC
    have hC' : h.buffers c = some C := by rw [← i.buffers]; exact hC
    rw [m.inv.totals c C hC']
    refine congrArg List.sum (List.map_congr_left fun p hp => ?_)
    have hlive := (hc.links.live p).mpr (.inr (.inl ⟨c, hp⟩))
    rw [Heap.lenOf, Heap.lenOf, hvecOf, update_of_ne (hfresh hlive), Heap.vecOf_congr i.pages]
  · exact { i.opened with }
  · intro k' hk'
    have hshow := i.shows k' hk'
    have hne : (k'.replaced old).page ≠ k.page := by
      rw [Block.page_replaced]
      exact hpage hk'
    refine ⟨?_, hshow.shape, hshow.mapping, ?_⟩
    · rw [hdataOf, update_of_ne hne, hshow.data]
    · rw [hvecOf, update_of_ne hne, hshow.vec]
  · refine ⟨?_, i.data.shape, i.data.mapping, ?_⟩
    · rw [hdataOf, update_self]
    · rw [hvecOf, update_self, hv]
  · exact i.maps.trans ⟨Nat.le_succ _, fun hM _ => hM⟩
  · exact i.onFile.congr rfl rfl (Nat.le_refl _)
  · intro p hp
    have hsame := i.same hp
    refine ⟨?_, ?_, ?_⟩
    · rw [hvecOf, update_of_ne (hfresh hp), hsame.vec]
    · rw [hdataOf, update_of_ne (hfresh hp), hsame.data]
    · rw [Heap.pageBytes, Heap.lenOf, hvecOf, update_of_ne (hfresh hp), ← hsame.bytes]
      exact Heap.bytes_congr (Heap.byteAt_congr rfl rfl rfl)
  · intro e he
    have hnew := Heap.refs_newPage i.core.links (x := h₁.next) (Nat.le_refl _)
      (Nat.lt_succ_self h₁.next : h₁.next < (h₁.newPage v k.data).next)
      (by rw [hdataOf, i.page]) e
    rw [hnew, if_neg (Ne.symm he)]
    exact Heap.refs_congr (Heap.dataOf_congr i.pages) i.maps.next hc.links.fresh e

end Pb
