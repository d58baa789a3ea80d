import PageBuf.Client.Isolation

/-!
# Counts — data live exactly as long as they are used

What a `use_count` counts: the pages linked in all buffers. `users` counts
them by walking the rings; the invariant counts page objects. Between two
operations the two agree, since every page object is then linked.
-/

namespace Pb

open StateRun RefCount

variable {env : Env} {h h' : Heap} {R R' : Nat → List Nat} {b d p : Nat}

namespace Heap

/-- The buffers that are there. -/
def liveBuffers (h : Heap) : List Nat :=
  (List.range h.next).filter (fun b => (h.buffers b).isSome)

/-- The pages linked in all buffers. -/
def linkedPages (h : Heap) : List Nat := h.liveBuffers.flatMap h.pagesOf

/-- The number of linked pages that refer to a `pb_data`. -/
def users (h : Heap) (d : Nat) : Nat := h.linkedPages.countP (fun p => h.dataOf p = some d)

end Heap

/-! ## Linked pages -/

theorem Links.mem_liveBuffers {F : List Nat} (hl : Links h R F) :
    b ∈ h.liveBuffers ↔ (h.buffers b).isSome := by
  simp only [Heap.liveBuffers, List.mem_filter, List.mem_range]
  exact ⟨fun hb => hb.2, fun hb => ⟨hl.buffer_fresh hb, hb⟩⟩

theorem Links.mem_linkedPages {F : List Nat} (hl : Links h R F) :
    p ∈ h.linkedPages ↔ ∃ b, p ∈ R b := by
  simp only [Heap.linkedPages, List.mem_flatMap, hl.mem_liveBuffers]
  constructor
  · rintro ⟨b, hb, hp⟩
    exact ⟨b, hl.pagesOf hb ▸ hp⟩
  · rintro ⟨b, hp⟩
    have hb : (h.buffers b).isSome := by
      by_contra hn
      simp [hl.dead (Option.not_isSome_iff_eq_none.mp hn)] at hp
    exact ⟨b, hb, (hl.pagesOf hb).symm ▸ hp⟩

/-- No page is linked twice. -/
theorem Links.nodup_linkedPages {F : List Nat} (hl : Links h R F) : h.linkedPages.Nodup := by
  refine List.nodup_flatMap.mpr ⟨fun b hb => ?_, ?_⟩
  · have hb' := hl.mem_liveBuffers.mp hb
    rw [hl.pagesOf hb']
    exact hl.nodup hb'
  · refine List.Pairwise.imp_of_mem ?_ (List.nodup_range.filter (fun b => (h.buffers b).isSome))
    intro b b' hb hb' hne p hp hp'
    have hlive := hl.mem_liveBuffers.mp hb
    have hlive' := hl.mem_liveBuffers.mp hb'
    rw [hl.pagesOf hlive] at hp
    rw [hl.pagesOf hlive'] at hp'
    exact hne (hl.disj hp hp')

/-- Between operations the users of a `pb_data` are its page objects. -/
theorem Links.users_eq (hl : Links h R []) (hs : ∀ {b}, (h.buffers b).isSome → h.dataOf b = none)
    (d : Nat) : h.users d = h.refs d := by
  refine countP_eq_holders hl.nodup_linkedPages (fun p hp => ?_) (fun p hp hd => ?_)
  · obtain ⟨b, hb⟩ := hl.mem_linkedPages.mp hp
    exact hl.fresh ((hl.live p).mpr (.inr (.inl ⟨b, hb⟩)))
  · refine hl.mem_linkedPages.mpr ?_
    have hlive : (h.pages p).isSome := by
      by_contra hn
      simp [Heap.dataOf_of_none (Option.not_isSome_iff_eq_none.mp hn)] at hd
    rcases (hl.live p).mp hlive with hb | hb | hb
    · simp [hs hb] at hd
    · exact hb
    · simp at hb

theorem Inv.users_eq (hi : Inv h R) (d : Nat) : h.users d = h.refs d :=
  hi.core.links.users_eq (fun hb => (hi.core.views.sentinel hb).1) d

/-! ## Exactness -/

/-- The counts are exact, and data and the blocks they own are there as long
as they have users, and no longer. -/
structure CountsExact (h : Heap) : Prop where
  count : ∀ {d D}, h.datas d = some D → D.useCount = h.users d
  live : ∀ d, (h.datas d).isSome ↔ 0 < h.users d
  linked : ∀ {b p}, (h.buffers b).isSome → p ∈ h.pagesOf b →
    ∃ d D, h.dataOf p = some d ∧ h.datas d = some D
  block : ∀ n, (h.blocks n).isSome ↔ ∃ d D, h.datas d = some D ∧
    D.responsibility = .owned ∧ D.dataVec.base = ⟨.heap n, 0⟩
  exclusive : ∀ {d d' D D'}, h.datas d = some D → h.datas d' = some D' →
    D.responsibility = .owned → D.dataVec.base = D'.dataVec.base → d = d'
  referenced : ∀ {d D}, h.datas d = some D → D.responsibility = .referenced →
    ∃ k, D.dataVec.base.region = .caller k
  none : (∀ b, h.buffers b = none) → (∀ d, h.datas d = none) ∧ ∀ n, h.blocks n = none

theorem Sound.owned (s : Sound h R) {D : Data} (hD : h.datas d = some D)
    (hr : D.responsibility = .owned) :
    ∃ n, D.dataVec.base = ⟨.heap n, 0⟩ ∧ h.blocks n = some D.dataVec.len :=
  s.inv.core.objs.owned (Heap.shapeOf_eq hD) (s.data_trivial (Heap.shapeOf_eq hD)) hr

theorem Sound.live_iff (s : Sound h R) (d : Nat) : (h.datas d).isSome ↔ 0 < h.users d := by
  rw [s.inv.users_eq d]
  have hlive := s.inv.core.objs.live d
  simpa [Heap.shapeOf, Heap.count] using hlive

/-- **In a sound state the counts are exact.** -/
theorem Sound.countsExact (s : Sound h R) (hs : h.Small) : CountsExact h where
  count := fun {d D} hD => by
    have hcount := s.inv.core.objs.count hD
    have hle := hs d
    rw [s.inv.users_eq d]
    simp only [Heap.count, List.count_nil, Nat.add_zero] at hcount
    omega
  live := s.live_iff
  linked := fun {b p} hb hp => by
    rw [s.pagesOf hb] at hp
    have hlive := s.inv.core.links.node_live hb (List.mem_cons_of_mem b hp)
    have hdata := s.inv.core.views.data hlive (s.inv.core.links.page hp)
    obtain ⟨d, hd⟩ := Option.isSome_iff_exists.mp hdata
    obtain ⟨sh, hsh⟩ := s.inv.core.data_live hd
    obtain ⟨D, hD⟩ := Heap.exists_data (h := h) (d := d) (by rw [hsh]; rfl)
    exact ⟨d, D, hd, hD⟩
  block := fun n => by
    constructor
    · intro hn
      obtain ⟨d, sh, hsh, hop, hregion⟩ := s.inv.core.objs.owner hn
      obtain ⟨D, hD⟩ := Heap.exists_data (h := h) (d := d) (by rw [hsh]; rfl)
      rw [Heap.shapeOf_eq hD] at hsh
      cases hsh
      have hr : D.responsibility = .owned := by
        cases hr : D.responsibility with
        | owned => rfl
        | referenced =>
            obtain ⟨k, hk⟩ := s.inv.core.objs.referenced (Heap.shapeOf_eq hD) hop hr
            rw [hregion] at hk
            simp at hk
      obtain ⟨m, hm, -⟩ := s.owned hD hr
      have hmn : m = n := by
        rw [Data.shape, hm] at hregion
        exact Region.heap.inj hregion
      exact ⟨d, D, hD, hr, hmn ▸ hm⟩
    · rintro ⟨d, D, hD, hr, hbase⟩
      obtain ⟨m, hm, hblock⟩ := s.owned hD hr
      have hmn : m = n := by
        rw [hbase] at hm
        exact (Region.heap.inj (Ptr.mk.inj hm).1).symm
      rw [← hmn, hblock]
      rfl
  exclusive := fun {d d' D D'} hD hD' hr hbase => by
    obtain ⟨n, hn, -⟩ := s.owned hD hr
    rcases s.inv.core.objs.excl (Heap.shapeOf_eq hD) (Heap.shapeOf_eq hD')
      (congrArg Ptr.region hbase) with ⟨k, hk⟩ | heq
    · rw [Data.shape, hn] at hk
      simp at hk
    · exact heq
  referenced := fun {d D} hD hr =>
    s.inv.core.objs.referenced (Heap.shapeOf_eq hD) (s.data_trivial (Heap.shapeOf_eq hD)) hr
  none := fun hb => by
    have hdata : ∀ d, h.datas d = Option.none := by
      intro d
      by_contra hn
      have hpos := (s.live_iff d).mp (Option.isSome_iff_ne_none.mpr hn)
      obtain ⟨p, hp, -⟩ := List.countP_pos_iff.mp hpos
      obtain ⟨b, hpb⟩ := s.inv.core.links.mem_linkedPages.mp hp
      simp [s.inv.core.links.dead (hb b)] at hpb
    refine ⟨hdata, fun n => ?_⟩
    by_contra hn
    obtain ⟨d, sh, hsh, -⟩ := s.inv.core.objs.owner (Option.isSome_iff_ne_none.mpr hn)
    simp [Heap.shapeOf, hdata d] at hsh

/-! ## Release -/

/-- Data and blocks that are gone stay gone. -/
structure StaysFreed (h h' : Heap) : Prop where
  data : ∀ d, d < h.next → h.datas d = none → h'.datas d = none
  block : ∀ n, n < h.next → h.blocks n = none → h'.blocks n = none

theorem World.staysFreed (w : World h h') : StaysFreed h h' where
  data := fun d hlt hd => by
    by_contra hn
    obtain ⟨D, hD⟩ := Option.ne_none_iff_exists'.mp hn
    have := w.data (Heap.shapeOf_eq hD) hlt
    simp [Heap.shapeOf, hd] at this
  block := fun n hlt hd => by
    by_contra hn
    obtain ⟨k, hk⟩ := Option.ne_none_iff_exists'.mp hn
    rw [w.block hk hlt] at hd
    simp at hd

end Pb
