import Mathlib.Algebra.GroupWithZero.Nat
import PageBuf.Client.Gather
import PageBuf.Invariant.SharedCalls

/-!
# Sharing — pages on a file in more than one buffer

A transfer out of an mmap buffer copies no bytes where the target takes pages
as they are: the target's pages lie on the same mappings. Over all runs of an
mmap buffer and any trivial buffers the counters know about these pages, every
correct call returns, and no call is seen through a buffer it is not about.
-/

namespace Pb

open StateRun Function Sequence

variable {env : Env} {h h' g : Heap} {R R' : Nat → List Nat} {a c head len m offset t : Nat}
  {fd : Fd} {ks : List Block} {op : SharedOp} {M : SharedOp → Prop} {σ : Strategy}

/-! ## Counters -/

/-- The objects around an mmap buffer among trivial buffers. Pages of any buffer are on data that is
there, and data is there as long as pages are on it. A mapping is a block of the file of the
buffer, and all of it is in the file. -/
structure Heap.SharesExactly (h : Heap) (m : Nat) : Prop where
  users : ∀ {d D}, h.datas d = some D → 0 < h.refs d ∧ D.useCount = h.refs d
  pages : ∀ {c p}, (h.buffers c).isSome → p ∈ h.pagesOf c →
    ∃ d D, h.dataOf p = some d ∧ h.datas d = some D ∧
      (h.vecOf p).base.region = D.dataVec.base.region
  mappings : ∀ {d a off obsolete}, h.mmapFieldsOf d = some (a, off, obsolete) →
    ∃ D i f, h.datas d = some D ∧ D.dataVec.base = ⟨.mapped i, 0⟩ ∧
      h.mappings i = some ⟨f, off, D.dataVec.len⟩ ∧ h.files f = h.fileOf m ∧
      mmapBaseSize ∣ off ∧ 0 < D.dataVec.len ∧ D.dataVec.len ≤ mmapBaseSize ∧
      off + D.dataVec.len ≤ (h.fileOf m).length
  allocator : ∃ a A, h.mmapAllocatorOf m = some A ∧ A.useCount = 1 + h.blocksMapped a ∧
    A.dataTree.Nodup ∧ ∀ d, d ∈ A.dataTree ↔ ∃ off, h.mmapFieldsOf d = some (a, off, false)

theorem Lends.sharesExactly (l : Lends h R m a fd head ks) (hr : h.Roomy) : h.SharesExactly m where
  users := fun {d D} hD => by
    have hfew := hr.users d
    have hlive := (l.inv.core.objs.live d).mp (by rw [Heap.shapeOf_eq hD]; rfl)
    have hcount := l.inv.core.objs.count hD
    simp only [Heap.count, List.count_nil, Nat.add_zero] at hlive hcount
    exact ⟨hlive, by omega⟩
  pages := fun {c p} hc hp => by
    have hcore := l.inv.core
    rw [hcore.links.pagesOf hc] at hp
    have hlive := (hcore.links.live p).mpr (.inr (.inl ⟨c, hp⟩))
    obtain ⟨d, hd⟩ := Option.isSome_iff_exists.mp (hcore.views.data hlive (hcore.links.page hp))
    obtain ⟨s, hs⟩ := hcore.data_live hd
    obtain ⟨D, hD⟩ := Heap.exists_data (h := h) (d := d) (by rw [hs]; rfl)
    exact ⟨d, D, hd, hD, hcore.views.region hd (Heap.shapeOf_eq hD)⟩
  mappings := fun {d a' off obsolete} hd => by
    obtain ⟨s, hs, hop⟩ := Heap.mmapFieldsOf_eq_some.mp hd
    obtain ⟨D, hD⟩ := Heap.exists_data (h := h) (d := d) (by rw [hs]; rfl)
    obtain ⟨i, off', len, ob, hm⟩ := l.onFile.maps hs (by simp [hop])
    have hshape := hm.shape
    rw [hs] at hshape
    cases hshape
    cases hop
    have hvec : D.dataVec = ⟨⟨.mapped i, 0⟩, len⟩ := by
      rw [Heap.shapeOf_eq hD] at hs
      exact congrArg Shape.dataVec (Option.some.inj hs)
    have hfile := l.opened.fileOf
    refine ⟨D, i, fd.file, hD, by rw [hvec], ?_, hfile.symm, hm.block, ?_, ?_, ?_⟩
    · rw [hvec]
      exact hm.mapping
    · rw [hvec]
      exact hm.pos
    · rw [hvec]
      exact hm.short
    · rw [hvec, hfile]
      exact hm.stop
  allocator := by
    obtain ⟨A, hA, -⟩ := l.opened.allocator
    have halloc := l.inv.core.allocs
    refine ⟨a, A, l.opened.mmapAllocatorOf.trans hA, ?_, (halloc.tree hA).1, fun d => ?_⟩
    · have hblocks := hr.blocks a
      rw [halloc.count hA, l.allocRefs_eq]
      omega
    · constructor
      · intro hd
        obtain ⟨s, off, hs, hop⟩ := (halloc.tree hA).2 d hd
        exact ⟨off, Heap.mmapFieldsOf_eq_some.mpr ⟨s, hs, hop⟩⟩
      · intro hd
        obtain ⟨off, hfields⟩ := hd
        obtain ⟨s, hs, hop⟩ := Heap.mmapFieldsOf_eq_some.mp hfields
        obtain ⟨i, M, A', -, -, -, hA', htree⟩ := halloc.mapped hs hop
        rw [hA] at hA'
        cases hA'
        exact htree rfl

theorem SharedReachable.step (hr : SharedReachable env m h) (hstep : SharedStep env m h h') :
    SharedReachable env m h' := by
  obtain ⟨g, file, openAction, closeAction, h₀, hg, hroom, hw, hcreate, hrun⟩ := hr
  exact ⟨g, file, openAction, closeAction, h₀, hg, hroom, hw, hcreate, hrun.tail hstep⟩

/-- The state after a call, if it returns. -/
def Heap.afterShared (h : Heap) (env : Env) (m : Nat) (op : SharedOp) : Heap :=
  match execShared env m op h with
  | .ok (_, h') => h'
  | .error _ => h

theorem roomy_of_next (hn : h.next ≤ 65533) : h.Roomy where
  users := fun d => Nat.le_trans (RefCount.holders_le h.next h.dataOf d) hn
  blocks := fun a => by
    have hle := RefCount.holders_le h.next (fun d => (h.mmapFieldsOf d).map Prod.fst) a
    unfold Heap.blocksMapped
    omega

theorem sharedCall_after (hv : op.Valid h m) (hc : op.MapsBlocks h m → ∀ d, ¬h.Uncounted m d)
    (ha : (execShared env m op h).toOption.isSome) (hn : (h.afterShared env m op).next ≤ 65533) :
    ∃ r, SharedCall env m op r h (h.afterShared env m op) := by
  unfold Heap.afterShared at hn ⊢
  cases hrun : execShared env m op h with
  | error f => simp [hrun, Except.toOption] at ha
  | ok q =>
      rw [hrun] at hn
      exact ⟨q.1, hv, hc, hrun, roomy_of_next hn⟩

/-- An empty trivial buffer, and a file of three bytes. -/
def Heap.besideFile : Heap :=
  (Heap.initial (fun _ _ => 0) (fun _ => 0) (fun _ => [1, 2, 3])).after .generous
    (.create trivialBufferStrategy)

theorem reachable_besideFile : Reachable .generous .besideFile :=
  Reachable.after ⟨_, _, _, .refl⟩ trivial (by decide) (by decide)

/-- The same with an mmap buffer over the file. -/
def Heap.overFile : Heap := Heap.besideFile.withMmap 0 .append .retain

theorem reachable_overFile : SharedReachable .generous 5 .overFile :=
  ⟨.besideFile, 0, .append, .retain, _, reachable_besideFile, roomy_of_next (by decide), by decide,
    mmapBufferCreate_run succeeds_generous, .refl⟩

theorem uncounted_overFile (d : Nat) : ¬Heap.overFile.Uncounted 5 d := by
  intro hu
  obtain ⟨D, a, off, hD, -⟩ := hu
  cases hD

/-- Two bytes of the file are in the trivial buffer. -/
def Heap.lentOut : Heap :=
  Heap.overFile.afterShared .generous 5 (.trivial (.writeBuffer 1 5 2))

theorem call_lentOut : ∃ r, SharedCall .generous 5 (.trivial (.writeBuffer 1 5 2)) r .overFile
    .lentOut :=
  sharedCall_after (.inr ⟨⟨_, rfl, rfl⟩, rfl, by decide⟩) (fun _ => uncounted_overFile)
    (by decide +kernel) (by decide +kernel)

theorem reachable_lentOut : SharedReachable .generous 5 .lentOut := by
  obtain ⟨r, c⟩ := call_lentOut
  exact reachable_overFile.step ⟨_, r, c⟩

/-- The buffer has the pages it had, and these have their bytes. -/
structure Untroubled (c : Nat) (h h' : Heap) : Prop where
  kind : h'.kindOf c = h.kindOf c
  pages : h'.pagesOf c = h.pagesOf c
  bytes : ∀ p ∈ h.pagesOf c, h'.pageBytes p = h.pageBytes p

theorem Untroubled.refl (c : Nat) (h : Heap) : Untroubled c h h := ⟨rfl, rfl, fun _ _ => rfl⟩

theorem Untroubled.trans (u : Untroubled c h g) (u' : Untroubled c g h') : Untroubled c h h' where
  kind := u'.kind.trans u.kind
  pages := u'.pages.trans u.pages
  bytes := fun p hp => (u'.bytes p (by rwa [u.pages])).trans (u.bytes p hp)

theorem Untroubled.content (u : Untroubled c h h') : h'.content c = h.content c := by
  rw [Heap.content, Heap.content, u.pages]
  exact List.flatMap_congr u.bytes

/-- No page of the buffer reaches beyond the mapping it is on. -/
def Heap.StaysInside (h : Heap) (c : Nat) : Prop := ∀ p ∈ h.pagesOf c, h.InsideMapping p

/-- What a call leaves alone it leaves inside its mappings. -/
theorem Spares.untroubled {P : Nat → Prop} (s : Spares P h h' R R') (l : Lends h R m a fd head ks)
    {a' head' : Nat} {ks' : List Block} (l' : Lends h' R' m a' fd head' ks') (hP : P c)
    (hc : (h.buffers c).isSome) (hin : h'.files = h.files ∨ h.StaysInside c) :
    Untroubled c h h' ∧ (h.StaysInside c → h'.StaysInside c) := by
  have hkind := s.kind hP hc
  have hc' : (h'.buffers c).isSome := by rwa [← h'.isSome_kindOf, hkind, h.isSome_kindOf]
  have hold := l.inv.core.links.pagesOf hc
  have hpages : h'.pagesOf c = h.pagesOf c := by
    rw [l'.inv.core.links.pagesOf hc', hold, s.ring hP hc]
  have hsame : ∀ p ∈ h.pagesOf c, Same h h' p := fun p hp =>
    s.same hP (hold ▸ hp) (hin.imp_right fun hin => hin p hp)
  refine ⟨⟨hkind, hpages, fun p hp => (hsame p hp).bytes⟩, fun hstay p hp i N hr hN => ?_⟩
  rw [hpages] at hp
  rw [(hsame p hp).vec] at hr ⊢
  -- the page was on the same mapping before
  obtain ⟨off, len, hold', -⟩ := l.mapping_of_page (hold ▸ hp) hr
  have hlt := l.inv.core.allocs.freshMapping (m := i) (by rw [hold']; rfl)
  exact hstay p hp i N hr (s.maps.mapping hN hlt)

/-- A run of correct calls that satisfy `M`. -/
def SharedRun (env : Env) (m : Nat) (M : SharedOp → Prop) : Heap → Heap → Prop :=
  Relation.ReflTransGen fun h h' => ∃ op r, M op ∧ SharedCall env m op r h h'

/-- The mmap buffer has gone on behind the bytes that it has lent. -/
def Heap.lentBehind : Heap := Heap.lentOut.afterShared .generous 5 (.mmap (.seek 3))

theorem run_lentBehind :
    SharedRun .generous 5 (fun op => op = .mmap (.seek 3)) .lentOut .lentBehind := by
  obtain ⟨r, c⟩ := @sharedCall_after .generous .lentOut 5 (.mmap (.seek 3)) ⟨trivial, rfl⟩
    False.elim (by decide +kernel) (by decide +kernel)
  exact .single ⟨_, r, rfl, c⟩

end Pb
