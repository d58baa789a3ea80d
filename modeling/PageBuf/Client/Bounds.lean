import PageBuf.Client.Dangling
import PageBuf.Client.Wraps

/-!
# Bounds — pages inside the memory of their data

Every step of an operation leaves pages inside the regions of their data, if a
page that is made from a part of another one is made from bytes of that page.
Only a buffer that is inserted into itself can come to read beyond: the split
of its first page takes away the bytes that the loop goes on to read.
-/

namespace Pb

open StateRun Function Ring RefCount

variable {env : Env} {h h' g : Heap} {R : Nat → List Nat} {b p q d : Nat} {c c' : Layout}

/-- The bytes of the page lie in the region of its data. -/
def Heap.Placed (h : Heap) (p : Nat) : Prop :=
  ∃ d v, h.dataOf p = some d ∧ h.boundsOf d = some v ∧ (h.vecOf p).Inside v

/-! ## Steps -/

/-- Pages are made from bytes of a page, split before their end, and their data
can have another user. -/
def withinPages : Allowance where
  share := fun len off n k => off + n ≤ len ∧ k < 65535
  split := fun len off k => off < len ∧ k < 65535

/-- Where the bytes of a page come from that has data after a step: the page is
as it was, or lies in a page of the same data, or has data of its own. -/
def Origin (c c' : Layout) (q : Nat) : Prop :=
  (c'.heap.vecOf q = c.heap.vecOf q ∧ c'.heap.dataOf q = c.heap.dataOf q) ∨
    (∃ p d, c.heap.dataOf p = some d ∧ c'.heap.dataOf q = some d ∧
      (c'.heap.vecOf q).Inside (c.heap.vecOf p)) ∨
    ∃ d, c'.heap.dataOf q = some d ∧ c'.heap.boundsOf d = some (c'.heap.vecOf q)

/-- A part of a range. -/
theorem DataVec.inside_part {v : DataVec} {off n : Nat} (hle : off + n ≤ v.len) :
    DataVec.Inside ⟨v.base.add off, n⟩ v := by
  refine ⟨rfl, Nat.le_add_right _ _, ?_⟩
  simp only [Ptr.add_offset]
  omega

section Origin

variable {v : DataVec} {x : Nat} {o : Option Nat}

/-- Other pages than the one that has changed are as they were. -/
theorem Origin.of_ne (hvec : c'.heap.vecOf = update c.heap.vecOf x v)
    (hdata : c'.heap.dataOf = update c.heap.dataOf x o) (hne : q ≠ x) : Origin c c' q := by
  refine .inl ⟨?_, ?_⟩
  · rw [hvec, update_of_ne hne]
  · rw [hdata, update_of_ne hne]

/-- A page that lies in a page of the same data. -/
theorem Origin.part (hvec : c'.heap.vecOf = update c.heap.vecOf x v)
    (hdata : c'.heap.dataOf x = some d) (hp : c.heap.dataOf p = some d)
    (hin : v.Inside (c.heap.vecOf p)) : Origin c c' x := by
  refine .inr (.inl ⟨p, d, hp, hdata, ?_⟩)
  rwa [hvec, update_self]

/-- A page with data of its own. -/
theorem Origin.own (hvec : c'.heap.vecOf = update c.heap.vecOf x v)
    (hdata : c'.heap.dataOf = update c.heap.dataOf x (some d))
    (hv : c'.heap.boundsOf d = some v) : Origin c c' x := by
  refine .inr (.inr ⟨d, ?_, ?_⟩)
  · rw [hdata, update_self]
  · rw [hvec, update_self, hv]

end Origin

/-- **Where pages come from.** -/
theorem PageStep.origin (s : PageStep withinPages c c') (ft : Footing c.heap c.rings c.flight)
    (hq : c'.heap.dataOf q = some d) : Origin c c' q := by
  cases s.effect with
  | quiet _ ch => exact .inl ⟨congrFun ch.vec q, congrFun ch.data q⟩
  | @own h h' R F x e v hx hx' he he' hn hv ch =>
      by_cases hqx : q = x
      · rw [hqx]
        exact .own ch.vec ch.data hv
      · exact .of_ne ch.vec ch.data hqx
  | @share h h' R F p x e off n u hx hx' hp hu hn hg ch =>
      by_cases hqx : q = x
      · rw [hqx]
        have hdata : h'.dataOf x = some e := by rw [ch.data, update_self]
        exact .part ch.vec hdata hp (DataVec.inside_part hg.1)
      · exact .of_ne ch.vec ch.data hqx
  | @split h h' R F b it y e off u k₁ k₂ hb hR hy hy' he hu hpos hle hg ch =>
      have hity : it ≠ y := by
        have := ft.links.ring_fresh (mem_cut hR)
        have : it < h.next := this
        omega
      by_cases hqit : q = it
      · -- the second half
        refine .inr (.inl ⟨it, e, he, ?_, ?_⟩)
        · show h'.dataOf q = some e
          rw [ch.data, hqit, update_of_ne hity, he]
        · show (h'.vecOf q).Inside (h.vecOf it)
          rw [ch.vec, hqit, update_self]
          refine DataVec.inside_part ?_
          show off + (h.lenOf it - off) ≤ h.lenOf it
          omega
      · by_cases hqy : q = y
        · -- the first half
          refine .inr (.inl ⟨it, e, he, ?_, ?_⟩)
          · show h'.dataOf q = some e
            rw [ch.data, hqy, update_self]
          · show (h'.vecOf q).Inside (h.vecOf it)
            rw [ch.vec, hqy, update_of_ne hity.symm, update_self]
            exact ⟨rfl, Nat.le_refl _, Nat.add_le_add_left hle _⟩
        · refine .inl ⟨?_, ?_⟩
          · show h'.vecOf q = _
            rw [ch.vec, update_of_ne hqit, update_of_ne hqy]
          · show h'.dataOf q = _
            rw [ch.data, update_of_ne hqy]
  | link _ ch => exact .inl ⟨congrFun ch.vec q, congrFun ch.data q⟩
  | @destroy h h' R F x e u he hu ch =>
      refine .of_ne ch.vec ch.data ?_
      rintro rfl
      have hq' : h'.dataOf q = some d := hq
      rw [ch.data, update_self] at hq'
      cases hq'
  | @shrink h h' R F b p v hb hp hn hv ch =>
      by_cases hqp : q = p
      · have hdata : h'.dataOf q = some d := hq
        have hold : h.dataOf q = some d := by rw [← hdata, ch.data]
        rw [hqp] at hdata hold ⊢
        exact .part ch.vec hdata hold hv
      · refine .inl ⟨?_, congrFun ch.data q⟩
        show h'.vecOf q = _
        rw [ch.vec, update_of_ne hqp]
  | @drop h h' R F b p e u l₁ l₂ hb hR he hu ch =>
      refine .of_ne ch.vec ch.data ?_
      rintro rfl
      have hq' : h'.dataOf q = some d := hq
      rw [ch.data, update_self] at hq'
      cases hq'
  | @dup h h' R F b p e e' u v hb hp he hu hne hd' hd'' hlen hv ch =>
      by_cases hqp : q = p
      · rw [hqp]
        exact .own ch.vec ch.data hv
      · exact .of_ne ch.vec ch.data hqp

/-- Data that is left after a step has kept its region. -/
theorem PageEffect.bounds {G : Allowance} (e : PageEffect G c c') (hd : d < c.heap.next) :
    c'.heap.boundsOf d = none ∨ c'.heap.boundsOf d = c.heap.boundsOf d := by
  cases e <;> exact Change.bounds ‹_› d hd

/-- The data of a page is there, where counts are exact. -/
theorem Layout.Counts.bounds (hc : c.Counts) (ft : Footing c.heap c.rings c.flight)
    (hp : c.heap.dataOf p = some d) : (c.heap.boundsOf d).isSome := by
  have hlt : p < c.heap.next := by
    by_contra hge
    rw [ft.links.dataOf_none (by omega)] at hp
    cases hp
  have hpos : 0 < c.heap.refs d := holders_pos_iff.mpr ⟨p, hlt, hp⟩
  rcases hc.counted d with ⟨-, hz⟩ | ⟨hs, -⟩
  · omega
  · rw [Heap.usesOf, Option.map_eq_some_iff] at hs
    obtain ⟨D, hD, -⟩ := hs
    rw [Heap.boundsOf, hD]
    rfl

/-- Every page with data lies in its region; the counts are exact and no page is
empty. -/
structure Layout.Bounded (c : Layout) : Prop where
  filled : c.Filled
  counts : c.Counts
  placed : ∀ p d, c.heap.dataOf p = some d → c.heap.Placed p

/-- **The step lemma.** -/
theorem Layout.Bounded.step (hc : c.Bounded) (ft : Footing c.heap c.rings c.flight)
    (s : PageStep withinPages c c') : c'.Bounded := by
  have hcounts : c'.Counts :=
    hc.counts.step ft (s.mono (fun _ _ _ _ hg => hg.2) (fun _ _ _ hg => hg.2))
  refine ⟨hc.filled.step ft (s.mono (fun _ _ _ _ _ => trivial) (fun _ _ _ hg => hg.1)), hcounts, ?_⟩
  intro q d hq
  -- a page that lies in a page that was placed
  have inherit : ∀ p e, c.heap.dataOf p = some e → c'.heap.dataOf q = some e →
      (c'.heap.vecOf q).Inside (c.heap.vecOf p) → c'.heap.Placed q := by
    intro p e hp hq hin
    obtain ⟨e', v, he', hv, hpv⟩ := hc.placed p e hp
    rw [hp] at he'
    cases he'
    have hlive := hcounts.bounds (ft.step s) hq
    rcases s.effect.bounds (ft.born hp) with hnone | hsame
    · rw [hnone] at hlive
      cases hlive
    · exact ⟨e, v, hq, hsame.trans hv, hin.trans hpv⟩
  rcases s.origin ft hq with ⟨hvec, hdata⟩ | ⟨p, e, hp, hq', hin⟩ | ⟨e, hq', hv⟩
  · refine inherit q d (hdata ▸ hq) hq ?_
    rw [hvec]
    exact DataVec.Inside.refl _
  · exact inherit p e hp hq' hin
  · exact ⟨e, _, hq', hv, DataVec.Inside.refl _⟩

/-! ## Runs -/

/-- A buffer that is inserted into itself keeps on its first page what the loop
goes on to read there. -/
def KeepsHead (env : Env) (h : Heap) : Action → Prop
  | .op (.insertBuffer b it off src len) => it ≠ b ∧ h.RejectsInsert b ∨
      ∀ B, h.buffers b = some B → HeadKept (transferAlgorithm env b B.strategy)
        B.strategy.pageSize b src it off len h h.pagesOf
  | _ => True

/-- Insertions name the end iterator or a byte of the page they name, and no
counter is asked to count further than it can. -/
structure InsertsCounted (env : Env) (h : Heap) (a : Action) : Prop where
  inside : InsertsInside h a
  counts : KeepsCounts RoundCounts env h a

/-- And no buffer that is inserted into itself loses what is still to be read. -/
structure InsertsKept (env : Env) (h : Heap) (a : Action) : Prop
    extends InsertsCounted env h a where
  head : KeepsHead env h a

theorem headKept_congr {alg : TransferAlgorithm} {pageSize b src it off len : Nat}
    {R R' : Nat → List Nat} (hR : R b = R' b)
    (hk : HeadKept alg pageSize b src it off len h R) :
    HeadKept alg pageSize b src it off len h R' := by
  unfold HeadKept at hk ⊢
  rwa [← hR]

/-- The split at the place of an insertion, if it is inside the page and can be
counted. -/
theorem maySplit_within {it off : Nat} {shared : Option Nat}
    (hin : MaySplit splitInside h it off shared) (hfew : MaySplit countable h it off shared) :
    MaySplit withinPages h it off shared :=
  fun hpos d hd => ⟨hin hpos d hd, hfew hpos d hd⟩

/-- The rounds of a transfer. -/
theorem transferAllowed_within {it off src len : Nat} (ft : Footing h R [])
    (hc : Layout.Bounded ⟨h, R, []⟩) (hb : (h.buffers b).isSome) (hsrc : (h.buffers src).isSome)
    (hin : len ≠ 0 → h.pagesOf src ≠ [] → h.IsInside b it off)
    (hcount : EveryRound RoundCounts env h b it off src len)
    (hkept : ∀ B, h.buffers b = some B → HeadKept (transferAlgorithm env b B.strategy)
      B.strategy.pageSize b src it off len h R) :
    TransferAllowed env withinPages h R b it off src len := by
  intro B Start s g R' hB law t hreach hl hs
  obtain ⟨hc', ft'⟩ : Layout.Bounded ⟨g, R', []⟩ ∧ Footing g R' [] :=
    t.steps.invariant ft hc fun _ _ ft hc s => hc.step ft s
  have hcounts := hcount.at ft hsrc hB t hreach hl hs
  have hfilled : 0 < g.lenOf s.srcIt := hc'.filled s.srcIt (.inl ⟨src, hs⟩)
  obtain ⟨hstart, hat⟩ := t.inside (hkept B hB) hl
  have hlt : s.srcOffset < g.lenOf s.srcIt := by omega
  refine ⟨hfilled, fun hclone d hd => ⟨law.fits hlt hstart, hcounts.share_few ft' hclone hd⟩, ?_⟩
  refine maySplit_within ?_ (hcounts.split_few ft')
  rcases t.first with h0 | ⟨rfl, rfl, rfl⟩
  · rw [h0]
    exact maySplit_zero _
  · refine maySplit_inside ft' hb (hin hl ?_)
    intro hnil
    rw [ft'.links.pagesOf hsrc] at hnil
    rw [hnil] at hs
    cases hs

/-- What a transfer of such a client relies on. -/
theorem InsertsBuffer.allowed {a : Action} {it off src len : Nat}
    (ha : InsertsBuffer h a b it off src len) (ft : Footing h R [])
    (hc : Layout.Bounded ⟨h, R, []⟩) (hn : a.Names h) (hM : InsertsKept env h a) :
    TransferAllowed env withinPages h R b it off src len ∧
      ∀ B, h.buffers b = some B → HeadKept (transferAlgorithm env b B.strategy)
        B.strategy.pageSize b src it off len h R := by
  obtain ⟨⟨hin, hcount⟩, hhead⟩ := hM
  cases ha with
  | insertBuffer b it off src len hacc =>
      obtain ⟨ht, -, hsrc, -⟩ := hn
      have hnot : ¬(it ≠ b ∧ h.RejectsInsert b) := fun hr => hacc hr.1 hr.2
      have hkept : ∀ B, h.buffers b = some B → HeadKept (transferAlgorithm env b B.strategy)
          B.strategy.pageSize b src it off len h R := fun B hB =>
        headKept_congr (ft.links.pagesOf ht.isSome) (hhead.resolve_left hnot B hB)
      refine ⟨transferAllowed_within ft hc ht.isSome hsrc.isSome (fun hl hp => ?_)
        (hcount.resolve_right hnot) hkept, hkept⟩
      refine IsInside.of_accepted (P := len = 0 ∨ h.pagesOf src = []) ?_ (by simp [hl, hp]) hacc
      rw [or_assoc]
      exact hin
  | writeBuffer b src len hacc =>
      obtain ⟨ht, hsrc, -⟩ := hn
      have hkept : ∀ B, h.buffers b = some B → HeadKept (transferAlgorithm env b B.strategy)
          B.strategy.pageSize b src b 0 len h R := fun _ _ _ hf => absurd rfl hf
      exact ⟨transferAllowed_within ft hc ht.isSome hsrc.isSome (fun _ _ => .inl rfl)
        (hcount.resolve_right hacc) hkept, hkept⟩

theorem bounded_run : RunInvariant env withinPages (InsertsKept env) Layout.Bounded where
  initial := fun mem callerLen files => by
    refine ⟨(@filled_run env).initial mem callerLen files,
      (@counts_run env).initial mem callerLen files, fun p d hd => ?_⟩
    have hnone : (Heap.initial mem callerLen files).dataOf p = none := rfl
    rw [hnone] at hd
    cases hd
  step := fun c c' ft hc s => hc.step ft s
  view := fun h h' R ft v hc => by
    refine ⟨(@filled_run env).view h h' R ft v hc.filled,
      (@counts_run env).view h h' R ft v hc.counts, fun p d hd => ?_⟩
    have hold : h.dataOf p = some d := by rw [← hd, v.data]
    obtain ⟨e, w, he, hw, hin⟩ := hc.placed p d hold
    refine ⟨e, w, ?_, ?_, ?_⟩
    · rw [v.data]
      exact he
    · rw [v.bounds]
      exact hw
    · rw [v.vec p (by rw [hold]; rfl)]
      exact hin
  allowed := fun h R a ft hc hn hM => by
    cases a with
    | overwriteBuffer b src len => trivial
    | op o =>
        cases o with
        | insertData b it off buf =>
            intro hne hacc
            exact maySplit_within
              (maySplit_inside ft hn.1.isSome (IsInside.of_accepted hM.inside hne hacc))
              (SplitFits.maySplit ft hn.1.isSome hM.counts hne hacc)
        | insertDataRef b it off buf len =>
            intro hne hacc
            exact maySplit_within
              (maySplit_inside ft hn.1.isSome (IsInside.of_accepted hM.inside hne hacc))
              (SplitFits.maySplit ft hn.1.isSome hM.counts hne hacc)
        | insertBuffer b it off src len =>
            intro hacc
            exact (InsertsBuffer.allowed (.insertBuffer b it off src len hacc) ft hc hn hM).1
        | writeBuffer b src len =>
            intro hacc
            exact (InsertsBuffer.allowed (.writeBuffer b src len hacc) ft hc hn hM).1
        | _ => trivial

/-! ## Copies -/

/-- One side of a `memcpy`: bytes of a page, bytes of a `pb_data` that was just
made, or `n` bytes from `start` on of the `len` bytes of the caller. -/
inductive Access where
  | page (p : Nat) (v : DataVec)
  | data (d : Nat) (v : DataVec)
  | caller (start n len : Nat)

/-- Only bytes of the page, which lie in its data, or of the new data, or of the
caller's memory. -/
def Access.InRange (g : Heap) : Access → Prop
  | .page p v => v.Inside (g.vecOf p) ∧ g.Placed p
  | .data d v => ∃ w, g.boundsOf d = some w ∧ v.Inside w
  | .caller start n len => start + n ≤ len

/-- In a run of the action from `h`, bytes are copied in the state `g`: what is
read and what is written. -/
inductive Memcpy (env : Env) (h : Heap) : Action → Heap → Access → Access → Prop where
  | readData {b len it : Nat} {s : ReadLoop} {g : Heap}
      (hit : bufferGetIterator env b h = .ok (it, h))
      (hr : LoopReaches (readDataRound env b) (⟨it, len, []⟩, h) (s, g)) (hl : s.len ≠ 0)
      (hs : s.it ≠ b) :
      Memcpy env h (.op (.readData b len)) g
        (.page s.it ⟨(g.vecOf s.it).base, min (g.lenOf s.it) s.len⟩)
        (.caller s.out.length (min (g.lenOf s.it) s.len) len)
  | overwriteData {b it : Nat} {buf : List UInt8} {s : OverwriteLoop} {g g' : Heap}
      (hit : bufferGetIterator env b h = .ok (it, h))
      (hr : LoopReaches (overwriteDataRound env b buf) (⟨it, buf.length, 0⟩, h) (s, g))
      (hl : s.len ≠ 0) (hs : s.it ≠ b) (hw : ensureWritable env b s.it g = .ok (true, g')) :
      Memcpy env h (.op (.overwriteData b buf)) g'
        (.caller s.written (min (g'.lenOf s.it) s.len) buf.length)
        (.page s.it ⟨(g'.vecOf s.it).base, min (g'.lenOf s.it) s.len⟩)
  | dupPageData {b it d : Nat} {buf : List UInt8} {s : OverwriteLoop} {g g' : Heap} {B : Buffer}
      {D : Data} (hit : bufferGetIterator env b h = .ok (it, h))
      (hr : LoopReaches (overwriteDataRound env b buf) (⟨it, buf.length, 0⟩, h) (s, g))
      (hl : s.len ≠ 0) (hs : s.it ≠ b) (hB : g.buffers b = some B)
      (hd : trivialDataCreate env (g.lenOf s.it) B.operations g = .ok (some d, g'))
      (hD : g'.datas d = some D) :
      Memcpy env h (.op (.overwriteData b buf)) g' (.page s.it (g'.vecOf s.it))
        (.data d ⟨D.dataVec.base, g'.lenOf s.it⟩)
  | insertBuffer {a : Action} {b it off src len x : Nat} {s : TransferLoop} {g g' : Heap}
      {B B' : Buffer} (ha : InsertsBuffer h a b it off src len) (hB : h.buffers b = some B)
      (hclone : B.strategy.cloneOnWrite = true)
      (hr : LoopReaches (insertBufferRound env (transferAlgorithm env b B.strategy) b it src)
        (⟨off, len, 0, (h.pagesOf src).headD src, 0⟩, h) (s, g))
      (hl : s.len ≠ 0) (hs : s.srcIt ≠ src) (hB' : g.buffers b = some B')
      (hx : trivialBufferPageCreate env b ((transferAlgorithm env b B.strategy).cut
        B'.strategy.pageSize (g.lenOf s.srcIt) s.srcOffset s.len) g = .ok (some x, g')) :
      Memcpy env h a g' (.page s.srcIt ⟨(g'.vecOf s.srcIt).base.add s.srcOffset, g'.lenOf x⟩)
        (.page x (g'.vecOf x))

section Copies

variable {F : List Nat} {n : Nat} {v : DataVec}

/-- Pages that are held are placed. -/
theorem Layout.Bounded.held (hc : Layout.Bounded ⟨h, R, F⟩) (hp : Layout.Holds ⟨h, R, F⟩ p) :
    h.Placed p := by
  obtain ⟨d, hd⟩ := Option.isSome_iff_exists.mp (hc.counts.data p hp)
  exact hc.placed p d hd

/-- The first bytes of a page. -/
theorem Layout.Bounded.firstBytes (hc : Layout.Bounded ⟨h, R, F⟩) (hp : p ∈ R b)
    (hn : n ≤ h.lenOf p) : Access.InRange h (.page p ⟨(h.vecOf p).base, n⟩) :=
  ⟨⟨rfl, Nat.le_refl _, Nat.add_le_add_left hn _⟩, hc.held (.inl ⟨b, hp⟩)⟩

variable (ft : Footing h R []) (hc : Layout.Bounded ⟨h, R, []⟩)

include ft hc

/-- What steps lead to. -/
theorem Layout.Bounded.steps {R' : Nat → List Nat}
    (s : PageSteps withinPages ⟨h, R, []⟩ ⟨g, R', F⟩) :
    Layout.Bounded ⟨g, R', F⟩ ∧ Footing g R' F :=
  s.invariant ft hc fun _ _ ft hc s => hc.step ft s

theorem readData_inRange {len it : Nat} {s : ReadLoop} (ht : h.IsTrivial b)
    (hit : bufferGetIterator env b h = .ok (it, h))
    (hr : LoopReaches (readDataRound env b) (⟨it, len, []⟩, h) (s, g)) (hs : s.it ≠ b) :
    Access.InRange g (.page s.it ⟨(g.vecOf s.it).base, min (g.lenOf s.it) s.len⟩) ∧
      Access.InRange g (.caller s.out.length (min (g.lenOf s.it) s.len) len) := by
  rw [bufferGetIterator_run ht ft.links] at hit
  cases hit
  have hI : PageSteps withinPages ⟨h, R, []⟩ ⟨g, R, []⟩ ∧ s.it ∈ b :: R b ∧
      s.out.length + s.len = len := by
    refine Returns.reaches (I := fun s g => PageSteps withinPages ⟨h, R, []⟩ ⟨g, R, []⟩ ∧
      s.it ∈ b :: R b ∧ s.out.length + s.len = len) ?_ hr
      ⟨.refl, headD_mem b (R b), Nat.zero_add len⟩
    intro s g _ hI
    obtain ⟨hsteps, hit, hsum⟩ := hI
    refine (returns_readDataRound (G := withinPages) (hsteps.links ft.links)
      (hsteps.trivial_of ht) hit).mono ?_
    intro r g' hr
    cases r with
    | inl s' => exact ⟨hsteps.trans hr.1, hr.2.1, hr.2.2.trans hsum⟩
    | inr bs => trivial
  obtain ⟨hsteps, hmem, hsum⟩ := hI
  obtain ⟨hc', -⟩ := hc.steps ft hsteps
  refine ⟨hc'.firstBytes ((List.mem_cons.mp hmem).resolve_left hs) (Nat.min_le_left _ _), ?_⟩
  show s.out.length + min (g.lenOf s.it) s.len ≤ len
  omega

/-- Where the loop of `overwrite_data` comes. -/
theorem overwriteData_reaches {buf : List UInt8} {it : Nat} {s : OverwriteLoop}
    (ht : h.IsTrivial b) (hit : bufferGetIterator env b h = .ok (it, h))
    (hr : LoopReaches (overwriteDataRound env b buf) (⟨it, buf.length, 0⟩, h) (s, g))
    (hs : s.it ≠ b) : Layout.Bounded ⟨g, R, []⟩ ∧ Footing g R [] ∧ g.IsTrivial b ∧
      s.it ∈ R b ∧ s.written + s.len = buf.length := by
  rw [bufferGetIterator_run ht ft.links] at hit
  cases hit
  have hI : PageSteps withinPages ⟨h, R, []⟩ ⟨g, R, []⟩ ∧ s.it ∈ b :: R b ∧
      s.written + s.len = buf.length := by
    refine Returns.reaches (I := fun s g => PageSteps withinPages ⟨h, R, []⟩ ⟨g, R, []⟩ ∧
      s.it ∈ b :: R b ∧ s.written + s.len = buf.length) ?_ hr
      ⟨.refl, headD_mem b (R b), Nat.zero_add _⟩
    intro s g _ hI
    obtain ⟨hsteps, hit, hsum⟩ := hI
    refine (returns_overwriteDataRound (G := withinPages) (hsteps.links ft.links)
      (hsteps.trivial_of ht) hit).mono ?_
    intro r g' hr
    cases r with
    | inl s' => exact ⟨hsteps.trans hr.1, hr.2.1, hr.2.2.trans hsum⟩
    | inr k => trivial
  obtain ⟨hsteps, hmem, hsum⟩ := hI
  obtain ⟨hc', ft'⟩ := hc.steps ft hsteps
  exact ⟨hc', ft', hsteps.trivial_of ht, (List.mem_cons.mp hmem).resolve_left hs, hsum⟩

/-- Where the loop of a transfer comes. -/
theorem transfer_reaches {a : Action} {it off src len : Nat} {s : TransferLoop} {B : Buffer}
    (ha : InsertsBuffer h a b it off src len) (hn : a.Names h) (hM : InsertsKept env h a)
    (hB : h.buffers b = some B)
    (hr : LoopReaches (insertBufferRound env (transferAlgorithm env b B.strategy) b it src)
      (⟨off, len, 0, (h.pagesOf src).headD src, 0⟩, h) (s, g))
    (hl : s.len ≠ 0) (hs : s.srcIt ≠ src) :
    ∃ Start R', CutLaw (transferAlgorithm env b B.strategy) Start ∧
      Layout.Bounded ⟨g, R', []⟩ ∧ Footing g R' [] ∧ g.kindOf = h.kindOf ∧ s.srcIt ∈ R' src ∧
      Start s.srcOffset ∧ s.srcOffset < g.lenOf s.srcIt ∧ s.srcOffset + s.len < 2 ^ 64 := by
  obtain ⟨hallowed, hkept⟩ := ha.allowed ft hc hn hM
  obtain ⟨ht, hsrc, hlen, hit⟩ : h.IsTrivial b ∧ h.IsTrivial src ∧ len < 2 ^ 64 ∧ it ∈ b :: R b := by
    cases ha with
    | insertBuffer b it off src len hacc =>
        obtain ⟨ht, hp, hsrc, hlen⟩ := hn
        exact ⟨ht, hsrc, hlen, ft.links.isPlaceOf ht hp⟩
    | writeBuffer b src len hacc => exact ⟨hn.1, hn.2.1, hn.2.2, List.mem_cons_self⟩
  obtain ⟨Start, law⟩ := transferAlgorithm_law env b B.strategy
  rw [ft.links.pagesOf hsrc.isSome] at hr
  have hI : ∃ R', TransferAt withinPages Start (HeadKept (transferAlgorithm env b B.strategy)
      B.strategy.pageSize b src it off len h R) b src it off len h R s g R' := by
    refine Returns.reaches (I := fun s g => ∃ R', TransferAt withinPages Start (HeadKept
      (transferAlgorithm env b B.strategy) B.strategy.pageSize b src it off len h R) b src it off
      len h R s g R') ?_ hr ⟨R, .start law hit off len⟩
    intro s g hreach hI
    obtain ⟨R', t⟩ := hI
    refine (t.round law ft hB (ht.allocator hB) hsrc hlen id
      (hallowed B Start s g R' hB law t hreach)).mono ?_
    intro r g' hr
    obtain ⟨R'', -, -, hr'⟩ := hr
    cases r with
    | inl s' => exact ⟨R'', hr'⟩
    | inr k => trivial
  obtain ⟨R', t⟩ := hI
  obtain ⟨hc', ft'⟩ := hc.steps ft t.steps
  have hsR : s.srcIt ∈ R' src := (List.mem_cons.mp t.srcIt).resolve_left hs
  have hfilled : 0 < g.lenOf s.srcIt := hc'.filled s.srcIt (.inl ⟨src, hsR⟩)
  obtain ⟨hstart, hat⟩ := t.inside (hkept B hB) hl
  have hsum := t.sum
  have hoff := t.srcOffset
  exact ⟨Start, R', law, hc', ft', t.steps.kind, hsR, hstart, by omega, by omega⟩

/-- Copying in `overwrite_data`. -/
theorem overwriteData_inRange {buf : List UInt8} {it : Nat} {s : OverwriteLoop} {g' : Heap}
    (ht : h.IsTrivial b) (hit : bufferGetIterator env b h = .ok (it, h))
    (hr : LoopReaches (overwriteDataRound env b buf) (⟨it, buf.length, 0⟩, h) (s, g))
    (hs : s.it ≠ b) (hw : ensureWritable env b s.it g = .ok (true, g')) :
    Access.InRange g' (.caller s.written (min (g'.lenOf s.it) s.len) buf.length) ∧
      Access.InRange g' (.page s.it ⟨(g'.vecOf s.it).base, min (g'.lenOf s.it) s.len⟩) := by
  obtain ⟨hc', ft', ht', hmem, hsum⟩ := overwriteData_reaches ft hc ht hit hr hs
  have hstep : PageStep withinPages ⟨g, R, []⟩ ⟨g', R, []⟩ :=
    returns_ensureWritable ft'.links ht' hmem true g' hw
  refine ⟨?_, (hc'.step ft' hstep).firstBytes hmem (Nat.min_le_left _ _)⟩
  show s.written + min (g'.lenOf s.it) s.len ≤ buf.length
  omega

/-- Copying in `dup_page_data`. -/
theorem dupPageData_inRange {buf : List UInt8} {it : Nat} {s : OverwriteLoop} {g' : Heap}
    {B : Buffer} {D : Data} (ht : h.IsTrivial b)
    (hit : bufferGetIterator env b h = .ok (it, h))
    (hr : LoopReaches (overwriteDataRound env b buf) (⟨it, buf.length, 0⟩, h) (s, g))
    (hs : s.it ≠ b) (hd : trivialDataCreate env (g.lenOf s.it) B.operations g = .ok (some d, g'))
    (hD : g'.datas d = some D) :
    Access.InRange g' (.page s.it (g'.vecOf s.it)) ∧
      Access.InRange g' (.data d ⟨D.dataVec.base, g'.lenOf s.it⟩) := by
  obtain ⟨hc', ft', -, hmem, -⟩ := overwriteData_reaches ft hc ht hit hr hs
  obtain ⟨E, nd⟩ := returns_trivialDataCreate env g (g.lenOf s.it) B.operations (some d) g' hd
  have hvec : g'.vecOf = g.vecOf := Heap.vecOf_congr nd.still.pages
  have hE : E = D := by
    have : g'.datas d = some E := by rw [nd.still.datas, update_self]
    rw [hD] at this
    exact (Option.some.inj this).symm
  refine ⟨⟨DataVec.Inside.refl _, ?_⟩, D.dataVec, by rw [Heap.boundsOf, hD]; rfl, rfl,
    Nat.le_refl _, ?_⟩
  · obtain ⟨e, v, he, hv, hin⟩ := hc'.held (.inl ⟨b, hmem⟩)
    have hne : e ≠ d := by
      have := ft'.born he
      have := nd.fresh
      have : e < g.next := ft'.born he
      omega
    refine ⟨e, v, ?_, ?_, by rw [hvec]; exact hin⟩
    · rw [Heap.dataOf_congr nd.still.pages]
      exact he
    · rw [bounds_update nd.still.datas rfl hne]
      exact hv
  · show D.dataVec.base.offset + g'.lenOf s.it ≤ D.dataVec.base.offset + D.dataVec.len
    rw [← hE, nd.len, Heap.lenOf_congr nd.still.pages]

/-- Copying in a transfer. -/
theorem insertBuffer_inRange {a : Action} {it off src len x : Nat} {s : TransferLoop}
    {g' : Heap} {B B' : Buffer} (ha : InsertsBuffer h a b it off src len) (hn : a.Names h)
    (hM : InsertsKept env h a) (hB : h.buffers b = some B)
    (hr : LoopReaches (insertBufferRound env (transferAlgorithm env b B.strategy) b it src)
      (⟨off, len, 0, (h.pagesOf src).headD src, 0⟩, h) (s, g))
    (hl : s.len ≠ 0) (hs : s.srcIt ≠ src)
    (hx : trivialBufferPageCreate env b ((transferAlgorithm env b B.strategy).cut
      B'.strategy.pageSize (g.lenOf s.srcIt) s.srcOffset s.len) g = .ok (some x, g')) :
    Access.InRange g' (.page s.srcIt ⟨(g'.vecOf s.srcIt).base.add s.srcOffset, g'.lenOf x⟩) ∧
      Access.InRange g' (.page x (g'.vecOf x)) := by
  obtain ⟨Start, R', law, hc', ft', -, hmem, hstart, hlt, hsmall⟩ :=
    transfer_reaches ft hc ha hn hM hB hr hl hs
  have hfilled : 0 < g.lenOf s.srcIt := by omega
  let cut := (transferAlgorithm env b B.strategy).cut B'.strategy.pageSize (g.lenOf s.srcIt)
    s.srcOffset s.len
  have hpos : 0 < cut :=
    (law.bounds hfilled (Nat.pos_of_ne_zero hl) (Nat.ne_of_lt hlt) (by omega)).1
  have hfits : s.srcOffset + cut ≤ g.lenOf s.srcIt := law.fits hlt hstart
  have np : NewPage withinPages g g' R' [] x _ none :=
    makesNew_create ft'.links hpos (some x) g' hx
  have hc'' : Layout.Bounded ⟨g', R', [x]⟩ := hc'.step ft' np.step
  have hne : s.srcIt ≠ x := by
    have := ft'.links.ring_fresh hmem
    have := np.fresh
    omega
  have hlx : g'.lenOf x = cut := by rw [np.len, update_self]
  have hls : g'.lenOf s.srcIt = g.lenOf s.srcIt := by rw [np.len, update_of_ne hne]
  refine ⟨⟨DataVec.inside_part ?_, hc''.held (.inl ⟨src, hmem⟩)⟩,
    DataVec.Inside.refl _, hc''.held (.inr List.mem_cons_self)⟩
  show s.srcOffset + g'.lenOf x ≤ g'.lenOf s.srcIt
  rw [hlx, hls]
  exact hfits

/-- Every copy is in range. -/
theorem Memcpy.inRange {a : Action} {src dst : Access} (hn : a.Names h)
    (hM : InsertsKept env h a) (hm : Memcpy env h a g src dst) : src.InRange g ∧ dst.InRange g := by
  cases hm with
  | readData hit hr hl hs => exact readData_inRange ft hc hn hit hr hs
  | overwriteData hit hr hl hs hw => exact overwriteData_inRange ft hc hn hit hr hs hw
  | dupPageData hit hr hl hs hB hd hD => exact dupPageData_inRange ft hc hn hit hr hs hd hD
  | insertBuffer ha hB hclone hr hl hs hB' hx =>
      exact insertBuffer_inRange ft hc ha hn hM hB hr hl hs hx

end Copies

/-! ## Results -/

/-- All linked pages lie in the regions of their data, and all copies in the
runs of the actions in `M` are in range. -/
structure PageBounds (env : Env) (M : Heap → Action → Prop) (h : Heap) : Prop where
  placed : ∀ b p, (h.buffers b).isSome → p ∈ h.pagesOf b → h.Placed p
  copies : ∀ a g src dst, a.Names h → M h a → Memcpy env h a g src dst →
    src.InRange g ∧ dst.InRange g

/-- Shares fragments of at most a page. -/
def fragmenting : Strategy := { trivialBufferStrategy with fragmentAsTarget := true }

/-- Four bytes on the page 6 of the buffer 1. -/
def Heap.fourBytes : Heap :=
  (Heap.twoBuffers fragmenting trivialBufferStrategy).after .generous (.writeData 1 [1, 2, 3, 4])

/-- Few users of the data of the two pages of a round. -/
theorem RoundCounts.of_few {σ : Strategy} {it : Nat} {s : TransferLoop}
    (hs : ∀ d ∈ g.dataOf s.srcIt, g.users d < 65534) (hit : ∀ d ∈ g.dataOf it, g.users d < 65534) :
    RoundCounts σ it g s where
  share := fun _ d hd => Nat.lt_succ_of_lt (hs d hd)
  split := fun _ d hd => by
    have := hit d hd
    split <;> omega

/-- The length that a round and the one after it leave to go. -/
def lenLeftNext : Except Fault ((TransferLoop ⊕ Nat) × Heap) → Nat
  | .ok (.inl s, g) =>
      lenLeft (insertBufferRound .generous (transferAlgorithm3 .generous) 1 6 1 s g)
  | _ => 0

/-- Neither the source page that a round leaves nor the page 6 has many users. -/
def fewLeft : Except Fault ((TransferLoop ⊕ Nat) × Heap) → Bool
  | .ok (.inl s, g) => decide ((∀ d ∈ g.dataOf s.srcIt, g.users d < 65534) ∧
      ∀ d ∈ g.dataOf 6, g.users d < 65534)
  | _ => true

/-- The two rounds of the insertion of the four bytes into themselves. -/
theorem counts_overrun : EveryRound RoundCounts .generous .fourBytes 1 6 2 1 8 := by
  intro B s g hB hreach hlen hne
  have hσ : B.strategy = fragmenting := by
    have hkind : Heap.fourBytes.kindOf 1 = some (fragmenting, .trivial) := by decide
    rw [Heap.kindOf, hB] at hkind
    exact (Prod.mk.inj (Option.some.inj hkind)).1
  have hpages : Heap.fourBytes.pagesOf 1 = [6] := by decide
  rw [hσ, hpages, List.headD_cons] at hreach
  have hcome : (s = ⟨2, 8, 0, 6, 0⟩ ∧ g = .fourBytes) ∨
      insertBufferRound .generous (transferAlgorithm3 .generous) 1 6 1 ⟨2, 8, 0, 6, 0⟩
        Heap.fourBytes = .ok (.inl s, g) ∨ s.len = 0 := by
    refine hreach.invariant (I := fun s g => (s = ⟨2, 8, 0, 6, 0⟩ ∧ g = .fourBytes) ∨
      insertBufferRound .generous (transferAlgorithm3 .generous) 1 6 1 ⟨2, 8, 0, 6, 0⟩
        Heap.fourBytes = .ok (.inl s, g) ∨ s.len = 0) (.inl ⟨rfl, rfl⟩) ?_
    rintro s₁ g₁ s₂ g₂ (⟨rfl, rfl⟩ | hfirst | hz) hrun
    · exact .inr (.inl hrun)
    · right; right
      have hlast : lenLeftNext (insertBufferRound .generous (transferAlgorithm3 .generous) 1 6 1
          ⟨2, 8, 0, 6, 0⟩ Heap.fourBytes) = 0 := by decide +kernel
      rw [hfirst] at hlast
      have hrun' : insertBufferRound .generous (transferAlgorithm3 .generous) 1 6 1 s₁ g₁
          = .ok (.inl s₂, g₂) := hrun
      simp only [lenLeftNext, hrun'] at hlast
      exact hlast
    · unfold insertBufferRound at hrun
      rw [if_pos (by simp [hz])] at hrun
      cases hrun
  rcases hcome with ⟨rfl, rfl⟩ | hfirst | hz
  · exact .of_few (by decide) (by decide)
  · have hfew : fewLeft (insertBufferRound .generous (transferAlgorithm3 .generous) 1 6 1
        ⟨2, 8, 0, 6, 0⟩ Heap.fourBytes) = true := by decide +kernel
    rw [hfirst] at hfew
    obtain ⟨hs, hit⟩ := of_decide_eq_true hfew
    exact .of_few hs hit
  · exact absurd hz hlen

/-- The four bytes inserted into themselves after the second one. The first round
shares all four of them, the next one starts behind the two that are left. -/
def Heap.overrun : Heap := Heap.fourBytes.after .generous (.insertBuffer 1 6 2 1 8)

end Pb
