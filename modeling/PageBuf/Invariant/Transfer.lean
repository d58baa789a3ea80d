import PageBuf.Invariant.InsertPages

/-!
# Transfer — the loops that insert pages made from a source buffer

The four algorithms behind `write_buffer` and `insert_buffer` differ in how
they cut the length, in whether they share or copy, and in how they move on
in the source. `CutLaw` is what their arithmetic has in common; the round and
the loop are proved from it once. Source and target may be one buffer: then
the sharing and the counting still hold, but not what is said of the bytes.
-/

namespace Pb

open StateRun Function Ring RefCount

variable {env : Env} {h h' : Heap} {R R' : Nat → List Nat} {F X k₁ k₂ l₁ l₂ : List Nat}
  {b src it x : Nat} {B : Buffer}

/-! ## Destroying a page that could not be inserted -/

/-- The page is the only user of its data, or not the only one. -/
def Disposable (h : Heap) (X : List Nat) (x : Nat) : Prop :=
  Sole h X x ∨ ∃ y, y ≠ x ∧ h.dataOf y = h.dataOf x

theorem Disposable.idle (hd : Disposable h X x) (hc : Core h R F X) (i : Idle h h') :
    Disposable h' X x := by
  rcases hd with hs | ⟨y, hy, he⟩
  · exact .inl (hs.idle hc i)
  · exact .inr ⟨y, hy, by rw [Heap.dataOf_congr i.pages]; exact he⟩

/-- The page goes, and its data stays as long as the count was right. -/
theorem pageDestroy_disposable (hc : Core h R (x :: F) []) (ht : Totals h R)
    (hd : Disposable h [] x) :
    Yields (pageDestroy x) h (fun _ h' => h'.buffers = h.buffers ∧
      (h'.Small → Kept b h h' R F [])) := by
  obtain ⟨d, hdx, hrun⟩ := pageDestroy_spec hc
  refine hrun.mono ?_
  rintro _ h' ⟨h₁, dr, rfl, hpost⟩
  refine ⟨dr.buffers, fun hsmall => ?_⟩
  have hcond : h.count [] d ≤ 65536 ∧ (h.count [] d = 1 → h.CanRelease d) := by
    rcases hd with hs | ⟨y, hy, he⟩
    · obtain ⟨e, s, hde, hse, hop, -⟩ := hs.inData
      rw [hdx] at hde
      cases hde
      have hone := hs.one hdx
      exact ⟨by omega, fun _ => Heap.canRelease_of_trivial hse hop⟩
    · have hxn := hc.page_fresh hdx
      have hupd := holders_update (d := d) (f := h.dataOf) (v := none) hxn
      simp only [hdx, reduceCtorEq, if_false, if_true] at hupd
      have hrefs : (h₁.setPage x none).refs d = holders h.next (update h.dataOf x none) d := by
        show holders h₁.next _ d = _
        rw [Heap.dataOf_setPage, Heap.dataOf_congr dr.pages, dr.next]
        rfl
      have hle := hsmall d
      rw [hrefs] at hle
      have hcount : h.count [] d = h.refs d := by simp [Heap.count]
      rw [hcount]
      have hrd : h.refs d = holders h.next h.dataOf d := rfl
      refine ⟨by omega, fun hone => absurd (eq_of_holders_eq_one hone ?_ hxn ?_ hdx) hy⟩
      · exact hc.page_fresh (he.trans hdx)
      · exact he.trans hdx
  obtain ⟨hc', q⟩ := hpost hcond.1 hcond.2
  exact Kept.of_quiet hc' ht q
    (fun hp he => (hc.links.apart (by simp)).2 _ (he ▸ hp))

/-! ## The arithmetic of the four algorithms -/

/-- How an algorithm cuts: `Start off` says that it may stand at offset `off`
of a source page with something left to transfer. -/
structure CutLaw (alg : TransferAlgorithm) (Start : Nat → Prop) : Prop where
  zero : Start 0
  bounds : ∀ {pageSize srcLen off len}, 0 < srcLen → 0 < len → off ≠ srcLen → off < 2 ^ 64 →
    0 < alg.cut pageSize srcLen off len ∧ alg.cut pageSize srcLen off len ≤ len
  fits : ∀ {pageSize srcLen off len}, off < srcLen → Start off →
    off + alg.cut pageSize srcLen off len ≤ srcLen
  whole : ∀ {pageSize srcLen off len}, off < srcLen → Start off → alg.always = true →
    len - alg.cut pageSize srcLen off len ≠ 0 → off + alg.cut pageSize srcLen off len = srcLen
  next : ∀ {pageSize srcLen off len}, off < srcLen → Start off →
    off + alg.cut pageSize srcLen off len ≠ srcLen →
    len - alg.cut pageSize srcLen off len ≠ 0 → Start (off + alg.cut pageSize srcLen off len)

theorem wrapSub_pos {a c : Nat} (hne : c ≠ a) (hc : c < 2 ^ 64) : 0 < wrapSub a c := by
  unfold wrapSub
  split <;> omega

theorem cutWhole_law (make : Nat → Nat → Nat → PbM (Option Nat)) (always : Bool) :
    CutLaw ⟨cutWhole, make, always⟩ (fun off => off = 0) where
  zero := rfl
  bounds := fun hs hl _ _ => by
    simp only [cutWhole]
    split <;> omega
  fits := fun hlt h0 => by
    subst h0
    simp only [cutWhole]
    split <;> omega
  whole := fun hlt h0 _ hne => by
    subst h0
    simp only [cutWhole] at hne ⊢
    split at hne <;> simp_all
  next := fun hlt h0 hne hl => by
    subst h0
    simp only [cutWhole] at hne hl ⊢
    split at hl <;> simp_all

theorem cutFragment_law (make : Nat → Nat → Nat → PbM (Option Nat)) :
    CutLaw ⟨cutFragment, make, false⟩ (fun _ => True) where
  zero := trivial
  bounds := fun {pageSize srcLen off len} hs hl hne hoff => by
    have hpos := wrapSub_pos hne hoff
    have hmin : 0 < (if wrapSub srcLen off < len then wrapSub srcLen off else len) ∧
        (if wrapSub srcLen off < len then wrapSub srcLen off else len) ≤ len := by
      split <;> omega
    exact ⟨cutLen_pos _ (by omega), Nat.le_trans (cutLen_le _ _) hmin.2⟩
  fits := fun {pageSize srcLen off len} hlt _ => by
    have hcut := cutLen_le pageSize (if wrapSub srcLen off < len then wrapSub srcLen off else len)
    have hw : wrapSub srcLen off = srcLen - off := wrapSub_of_le (by omega)
    have hmin : (if wrapSub srcLen off < len then wrapSub srcLen off else len) ≤ srcLen - off := by
      rw [hw]
      split <;> omega
    show off + cutLen _ _ ≤ srcLen
    omega
  whole := fun _ _ hf => absurd hf (by simp)
  next := fun _ _ _ _ => trivial

/-! ## One round -/

/-- What an algorithm's page maker has to do with the source page `p`. -/
def MakesFrom (env : Env) (h : Heap) (R : Nat → List Nat) (b p : Nat)
    (make : PbM (Option Nat)) (n off : Nat) : Prop :=
  Yields make h (fun r h' => match r with
    | none => NotMade env h h' R [] []
    | some x => ∃ v, Made h h' R [] [] x v ∧ Disposable h' [] x ∧
        (h.WritesInPlace b → h'.InData x) ∧ v.len = n ∧
        (off + n ≤ h.lenOf p → h'.pageBytes x = ((h.pageBytes p).drop off).take n))

theorem headD_mem_of_ne_nil {l : List Nat} (e : Nat) (hne : l ≠ []) : l.headD e ∈ l := by
  cases l with
  | nil => exact absurd rfl hne
  | cons p l => simp

/-- **One round**: a page made from the source page is in its place and the
source iterator has moved on, or a request was refused. -/
theorem insertBufferRound_spec {alg : TransferAlgorithm} {s : TransferLoop} {n : Nat}
    {m₁ m₂ : List Nat} (hc : Core h R [] []) (ht : Totals h R) (hB : h.buffers b = some B)
    (hop : B.operations = .trivial) (hR : R b = k₁ ++ k₂) (hit : it = k₂.headD b)
    (hsrc : h.IsTrivial src) (hsp : R src = m₁ ++ s.srcIt :: m₂) (hl : s.len ≠ 0)
    (hn : n = alg.cut B.strategy.pageSize (h.lenOf s.srcIt) s.srcOffset s.len) (hpos : 0 < n)
    (hmake : MakesFrom env h R b s.srcIt (alg.make s.srcIt n s.srcOffset) n s.srcOffset) :
    Yields (insertBufferRound env alg b it src s) h (fun r h' =>
      (r = .inr s.inserted ∧ Refused env ∧ (h'.Small → Kept b h h' R [] [] ∧
        (it = b → h'.revOf b = h.revOf b))) ∨
      (∃ x bs l₁ l₂ j₁ j₂,
        Inserted h h' R [] [] b it (min s.offset (h.lenOf it)) x (bumpOf B b it) bs
          k₁ k₂ l₁ l₂ ∧ bs.length = n ∧
        (s.srcOffset + n ≤ h.lenOf s.srcIt →
          bs = ((h.pageBytes s.srcIt).drop s.srcOffset).take n) ∧
        update R b (l₁ ++ x :: l₂) src = j₁ ++ s.srcIt :: j₂ ∧
        (src ≠ b → j₁ = m₁ ∧ j₂ = m₂) ∧
        ((r = .inl ⟨0, s.len - n, s.inserted + n, j₂.headD src, 0⟩ ∧
            (alg.always = true ∨ s.srcOffset + n = h'.lenOf s.srcIt)) ∨
          (r = .inl ⟨0, s.len - n, s.inserted + n, s.srcIt, s.srcOffset + n⟩ ∧
            alg.always = false ∧ s.srcOffset + n ≠ h'.lenOf s.srcIt)))) := by
  have hb : (h.buffers b).isSome := by rw [hB]; rfl
  have hsb := hsrc.isSome
  have hspR : s.srcIt ∈ R src := by simp [hsp]
  have hne : s.srcIt ≠ src := fun he => hc.links.notMem_self hsb (he ▸ hspR)
  have hplive := hc.links.node_live hsb (List.mem_cons_of_mem src hspR)
  unfold insertBufferRound bufferIsEndIterator trivialBufferIsEndIterator
  rw [if_neg (by simp [hl, hne])]
  refine Yields.step (getBuffer_run hB) (Yields.step (pageGetLen_run hplive) ?_)
  rw [← hn]
  refine Yields.bind hmake ?_
  rintro (- | x) h₁ hpost
  · refine yields_pure.mpr (.inl ⟨rfl, hpost.refused, fun _ => ⟨hpost.kept ht, fun _ => ?_⟩⟩)
    rw [Heap.revOf, Heap.revOf, (hpost.quiet (fun _ => True)).buffers]
  · obtain ⟨v, m, hs, hw, hv, hbytes⟩ := hpost
    have hout : ∀ {c p}, p ∈ R c → p ≠ x := fun hp => m.notMem hc.links hp
    have hB₁ : h₁.buffers b = some B := by rw [m.quiet.buffers, hB]
    have ht₁ := ht.quiet m.quiet hout
    have hk : h₁.kindOf = h.kindOf := by
      funext c
      simp [Heap.kindOf, m.quiet.buffers]
    have hit' : h₁.lenOf it = h.lenOf it := by
      refine (m.quiet.same ?_).len
      rintro rfl
      have : it ∈ b :: R b := by
        rw [hR, hit]
        exact List.cons_subset_cons b (List.subset_append_right k₁ k₂) (headD_mem b k₂)
      have := hc.links.node_live hb this
      simp [m.fresh] at this
    refine Yields.bind (trivialBufferInsert_spec m.core ht₁ hB₁ hop hR hit
      (fun hcw => hw (hcw.congr (congrFun hk b)))) ?_
    rintro k h₂ (⟨rfl, hr, rfl, hnb, -⟩ | ⟨rfl, l₁, l₂, i⟩)
    · rw [if_pos rfl]
      have hk₁ := Kept.bump_refused (b := b) m.core ht₁ hB₁ 1
      have hd₂ : Disposable (h₁.bump b B 1).refused [] x :=
        hs.idle m.core ((Idle.bump hB₁ 1).trans (Idle.refused _))
      refine Yields.bind (pageDestroy_disposable (b := b) hk₁.core hk₁.totals hd₂) ?_
      rintro _ h₃ ⟨-, hk₃⟩
      refine yields_pure.mpr (.inl ⟨rfl, hr, fun hsmall => ⟨?_, fun he => absurd he hnb⟩⟩)
      have k₃ := hk₃ hsmall
      refine ⟨k₃.core, k₃.totals, (m.quiet.frame hout b).trans (hk₁.frame.trans k₃.frame), ?_⟩
      exact fun p hp => (m.quiet.same (hout hp)).trans ((hk₁.same p hp).trans (k₃.same p hp))
    · have hxlen : h₁.lenOf x = n := m.len.trans hv
      rw [hxlen, if_neg (by omega)]
      rw [hit'] at i
      have i' := i.of_made m hc.links hb hR hit
      have hspR' : s.srcIt ∈ update R b (l₁ ++ x :: l₂) src := by
        rcases eq_or_ne src b with rfl | hsne
        · rw [update_self]
          have := i.sub (hR ▸ hspR)
          simp only [List.mem_append, List.mem_cons] at this ⊢
          tauto
        · rwa [update_of_ne hsne]
      obtain ⟨j₁, j₂, hj, hjm⟩ : ∃ j₁ j₂, update R b (l₁ ++ x :: l₂) src = j₁ ++ s.srcIt :: j₂ ∧
          (src ≠ b → j₁ = m₁ ∧ j₂ = m₂) := by
        rcases eq_or_ne src b with rfl | hsne
        · obtain ⟨j₁, j₂, hj⟩ := List.append_of_mem hspR'
          exact ⟨j₁, j₂, hj, fun h => absurd rfl h⟩
        · exact ⟨m₁, m₂, by rw [update_of_ne hsne, hsp], fun _ => ⟨rfl, rfl⟩⟩
      have hsrc' : h₂.IsTrivial src := hsrc.congr i'.frame.kind
      have hplive' : (h₂.pages s.srcIt).isSome :=
        i.core.links.node_live hsrc'.isSome (List.mem_cons_of_mem src hspR')
      refine Yields.step (pageGetLen_run hplive') ?_
      have hlenx : (h₁.pageBytes x).length = n := by rw [Heap.length_pageBytes, hxlen]
      by_cases hmove : alg.always = true ∨ s.srcOffset + n = h₂.lenOf s.srcIt
      · rw [if_pos (by simpa using hmove)]
        refine Yields.step (bufferNextIterator_run hsrc' i.core.links hj) (yields_pure.mpr ?_)
        exact .inr ⟨x, _, l₁, l₂, j₁, j₂, i', hlenx, hbytes, hj, hjm, .inl ⟨rfl, hmove⟩⟩
      · rw [if_neg (by simpa using hmove)]
        refine yields_pure.mpr ?_
        rw [not_or] at hmove
        exact .inr ⟨x, _, l₁, l₂, j₁, j₂, i', hlenx, hbytes, hj, hjm,
          .inr ⟨rfl, by simpa using hmove.1, hmove.2⟩⟩

/-! ## The loop -/

/-- What a transfer of up to `len` bytes has done: `k` bytes are there, from a
source of its own the first `k`, and all there were unless `Fails` says why
not. After a refusal this needs counts that fit a `uint16_t`. -/
def Transfers (env : Env) (b src : Nat) (h : Heap) (R : Nat → List Nat) (len : Nat) (Fails : Prop)
    (pre post : List UInt8) (Inside AtEnd : Prop) (k : Nat) (h' : Heap) : Prop :=
  k ≤ len ∧ (h'.Small ∨ ¬ Refused env →
    (src ≠ b → k ≠ min len (h.flat (R src)).length → Fails) ∧
    ∃ R' out, out.length = k ∧ (src ≠ b → out = (h.flat (R src)).take k) ∧
      Grown b h h' R R' [] [] pre out post Inside AtEnd)

/-- The page maker of an algorithm, in every state of the loop. -/
def MakesTransfer (env : Env) (h₀ : Heap) (b : Nat) (alg : TransferAlgorithm) : Prop :=
  ∀ h R p n off, Core h R [] [] → h.kindOf = h₀.kindOf → (h.pages p).isSome →
    (h.dataOf p).isSome → MakesFrom env h R b p (alg.make p n off) n off

theorem take_flat_add {l₁ l₂ : List Nat} {p off n : Nat} {bs : List UInt8}
    (hle : off + n ≤ h.lenOf p) (hbs : bs = ((h.pageBytes p).drop off).take n) :
    (h.flat (l₁ ++ p :: l₂)).take ((h.flat l₁).length + off) ++ bs
      = (h.flat (l₁ ++ p :: l₂)).take ((h.flat l₁).length + off + n) := by
  have hlen : (h.pageBytes p).length = h.lenOf p := Heap.length_pageBytes
  rw [Heap.flat_append, Heap.flat_cons, Nat.add_assoc, List.take_length_add_append,
    List.take_length_add_append, List.take_append_of_le_length (by omega),
    List.take_append_of_le_length (by omega), hbs, List.append_assoc, ← List.take_add]

/-- The source has no empty page either. -/
theorem Grown.full_source {pre out post : List UInt8} {Inside AtEnd : Prop}
    (g : Grown b h h' R R' F X pre out post Inside AtEnd) (hf : h.Full (R src))
    (hself : src = b → Inside) : h'.Full (R' src) := by
  rcases eq_or_ne src b with rfl | hne
  · exact g.full hf (hself rfl)
  · intro p hp
    rw [g.frame.ring hne] at hp
    rw [(g.frame.same hne hp).len]
    exact hf p hp

/-- The loop after some rounds: `l₁` and `l₂` lie before and behind the place
in the target, `m₁` and `m₂` behind and before the iterator of the source, and
`out` has been transferred. -/
structure TransferInv (Start : Nat → Prop) (b src it offset len : Nat) (h : Heap)
    (R : Nat → List Nat) (k₁ k₂ : List Nat) (s : TransferLoop) (h' : Heap)
    (R' : Nat → List Nat) (l₁ l₂ m₁ m₂ : List Nat) (out : List UInt8) : Prop where
  sum : s.inserted + s.len = len
  srcOffset : s.srcOffset ≤ s.inserted
  length : out.length = s.inserted
  target : R' b = l₁ ++ l₂
  place : it = l₂.headD b
  front : h'.before l₁ l₂ it s.offset = h.before k₁ k₂ it offset ++ out
  back : h'.behind l₂ it s.offset = h.behind k₂ it offset
  inside : h.Full (R b) → (it ≠ b → offset < h.lenOf it) → it ≠ b → s.offset < h'.lenOf it
  grown : Grown b h h' R R' [] [] (h.before k₁ k₂ it offset) out (h.behind k₂ it offset)
    (it ≠ b → offset < h.lenOf it) (it = b)
  source : R' src = m₁ ++ m₂
  srcIt : s.srcIt = m₂.headD src
  notEnd : m₂ ≠ [] → s.srcOffset ≠ h'.lenOf s.srcIt
  bytes : src ≠ b → out = (h.flat (R src)).take s.inserted
  reading : src ≠ b → s.len ≠ 0 → Start s.srcOffset ∧
    (h.flat m₁).length + s.srcOffset = s.inserted ∧
    (m₂ ≠ [] → s.srcOffset < h.lenOf s.srcIt) ∧ (m₂ = [] → s.srcOffset = 0)

theorem Heap.before_zero (h : Heap) (l₁ l₂ : List Nat) (it : Nat) :
    h.before l₁ l₂ it 0 = h.flat l₁ := by
  simp [before]

theorem Heap.behind_zero (h : Heap) (l₂ : List Nat) (it : Nat) :
    h.behind l₂ it 0 = h.flat l₂ := by
  simp [behind]

theorem Heap.before_behind (h : Heap) (l₁ l₂ : List Nat) (it offset : Nat) :
    h.before l₁ l₂ it offset ++ h.behind l₂ it offset = h.flat (l₁ ++ l₂) := by
  rw [before, behind, List.append_assoc, List.take_append_drop, ← flat_append]

section Loop

variable {alg : TransferAlgorithm} {Start : Nat → Prop} {offset len n : Nat}
  {s : TransferLoop} {h'' : Heap} {m₁ m₂ : List Nat} {out bs : List UInt8}

theorem TransferInv.init (law : CutLaw alg Start) (hi : Inv h R) (hR : R b = k₁ ++ k₂)
    (hit : it = k₂.headD b) (hfull : h.Full (R src)) :
    TransferInv Start b src it offset len h R k₁ k₂ ⟨offset, len, 0, (R src).headD src, 0⟩ h R
      k₁ k₂ [] (R src) [] := by
  have hhead : R src ≠ [] → 0 < h.lenOf ((R src).headD src) := by
    intro hne
    cases hRs : R src with
    | nil => exact absurd hRs hne
    | cons p l => exact hfull p (by simp [hRs])
  refine ⟨by simp, Nat.le_refl _, rfl, hR, hit, by simp, rfl, fun _ h => h, ?_, rfl, rfl, ?_,
    fun _ => rfl, fun _ _ => ⟨law.zero, rfl, hhead, fun _ => rfl⟩⟩
  · exact Grown.refl hi (by rw [Heap.before_behind, hR])
  · intro hne
    have := hhead hne
    dsimp only
    omega

/-- The loop ends with the length or with the source. -/
theorem TransferInv.done (t : TransferInv Start b src it offset len h R k₁ k₂ s h' R' l₁ l₂
    m₁ m₂ out) (hz : s.len = 0 ∨ m₂ = []) (hne : src ≠ b) :
    s.inserted = min len (h.flat (R src)).length := by
  have hsum := t.sum
  have hle : s.inserted ≤ (h.flat (R src)).length := by
    rw [← t.length, t.bytes hne, List.length_take]
    exact Nat.min_le_right _ _
  by_cases hl : s.len = 0
  · omega
  · have hm₂ := hz.resolve_left hl
    obtain ⟨-, hlen, -, h0⟩ := t.reading hne hl
    have hsplit := t.source
    rw [hm₂, List.append_nil, t.grown.frame.ring hne] at hsplit
    rw [← hsplit, h0 hm₂] at hlen
    omega

/-- One more page, wherever the source iterator has gone. -/
theorem TransferInv.step {n₁ n₂ m₁' m₂' : List Nat} {off' : Nat}
    (t : TransferInv Start b src it offset len h R k₁ k₂ s h' R' l₁ l₂ m₁ m₂ out)
    (hR : R b = k₁ ++ k₂) (hB : h'.buffers b = some B)
    (i : Inserted h' h'' R' [] [] b it (min s.offset (h'.lenOf it)) x (bumpOf B b it) bs
      l₁ l₂ n₁ n₂) (hbs : bs.length = n) (hpos : 0 < n) (hn : n ≤ s.len)
    (hout : src ≠ b → out ++ bs = (h.flat (R src)).take (s.inserted + n))
    (hm : update R' b (n₁ ++ x :: n₂) src = m₁' ++ m₂')
    (hoff : m₂' ≠ [] → off' ≠ h''.lenOf (m₂'.headD src)) (hle : off' ≤ s.inserted + n)
    (hread : src ≠ b → s.len - n ≠ 0 → Start off' ∧
      (h.flat m₁').length + off' = s.inserted + n ∧
      (m₂' ≠ [] → off' < h.lenOf (m₂'.headD src)) ∧ (m₂' = [] → off' = 0)) :
    TransferInv Start b src it offset len h R k₁ k₂
      ⟨0, s.len - n, s.inserted + n, m₂'.headD src, off'⟩ h'' (update R' b (n₁ ++ x :: n₂))
      (n₁ ++ [x]) n₂ m₁' m₂' (out ++ bs) := by
  have hfront := t.front
  have hback := t.back
  have hne : bs ≠ [] := List.ne_nil_of_length_pos (by omega)
  have hin : h.Full (R b) → (it ≠ b → offset < h.lenOf it) → it ≠ b →
      min s.offset (h'.lenOf it) < h'.lenOf it :=
    fun hf hI hnb => Nat.lt_of_le_of_lt (Nat.min_le_left _ _) (t.inside hf hI hnb)
  have g : Grown b h h'' R (update R' b (n₁ ++ x :: n₂)) [] [] (h.before k₁ k₂ it offset)
      (out ++ bs) (h.behind k₂ it offset) (it ≠ b → offset < h.lenOf it) (it = b) := by
    refine t.grown.insert i hB t.target hne ?_ hin id ?_
    · rw [Heap.before] at hfront
      rw [Heap.behind] at hback
      rw [hfront, hback]
      simp only [List.append_assoc]
    · intro hnil
      rw [t.grown.content]
      refine List.ne_nil_of_length_pos ?_
      have := List.length_pos_of_ne_nil hnil
      rw [hR, ← Heap.before_behind h k₁ k₂ it offset] at this
      simp only [List.length_append] at this ⊢
      omega
  exact
    { sum := by
        have := t.sum
        dsimp only
        omega
      srcOffset := hle
      length := by rw [List.length_append, t.length, hbs]
      target := by rw [update_self]; simp
      place := i.place
      front := by
        rw [Heap.before_zero, Heap.flat_append, Heap.flat_cons, Heap.flat_nil, List.append_nil,
          i.bytes, i.front, ← List.append_assoc, ← hfront, Heap.before]
      back := by
        rw [Heap.behind_zero, i.back, ← hback, Heap.behind]
      inside := fun hf hI hnb => by
        refine g.full hf hI it ?_
        rw [update_self, i.place]
        cases n₂ with
        | nil => exact absurd i.place hnb
        | cons p n₂ => simp
      grown := g
      source := hm
      srcIt := rfl
      notEnd := hoff
      bytes := hout
      reading := hread }

/-- No page of the source becomes empty. -/
theorem TransferInv.full_source {n₁ n₂ : List Nat}
    (t : TransferInv Start b src it offset len h R k₁ k₂ s h' R' l₁ l₂ m₁ m₂ out)
    (i : Inserted h' h'' R' [] [] b it (min s.offset (h'.lenOf it)) x (bumpOf B b it) bs
      l₁ l₂ n₁ n₂) (hB : h'.buffers b = some B) (hpos : 0 < n) (hbs : bs.length = n)
    (hfull : h.Full (R src)) (hself : src = b → it ≠ b → offset < h.lenOf it) :
    h''.Full (update R' b (n₁ ++ x :: n₂) src) := by
  have hf := t.grown.full_source hfull hself
  rcases eq_or_ne src b with rfl | hne
  · rw [update_self]
    refine Full.cons_append (i.full (t.target ▸ hf) (fun hnb => ?_)) ?_
    · exact Nat.lt_of_le_of_lt (Nat.min_le_left _ _) (t.inside hfull (hself rfl) hnb)
    · rw [← Heap.length_pageBytes, i.bytes]
      omega
  · rw [update_of_ne hne]
    intro p hp
    rw [(i.frame.same hne hp).len]
    exact hf p hp

/-- In a source of its own the next bytes are taken from where the loop
stands. -/
theorem TransferInv.take (t : TransferInv Start b src it offset len h R k₁ k₂ s h' R' l₁ l₂
    m₁ (s.srcIt :: m₂) out) (hne : src ≠ b) (hl : s.len ≠ 0)
    (hfits : s.srcOffset + n ≤ h.lenOf s.srcIt)
    (hbytes : s.srcOffset + n ≤ h'.lenOf s.srcIt →
      bs = ((h'.pageBytes s.srcIt).drop s.srcOffset).take n) :
    out ++ bs = (h.flat (R src)).take (s.inserted + n) := by
  have hsplit := t.source
  rw [t.grown.frame.ring hne] at hsplit
  have hs := t.grown.frame.same hne (p := s.srcIt) (by simp [hsplit])
  rw [t.bytes hne, ← (t.reading hne hl).2.1, hsplit]
  refine take_flat_add hfits ?_
  rw [← hs.bytes]
  exact hbytes (by rw [hs.len]; exact hfits)

theorem insertBufferLoop_spec (law : CutLaw alg Start) (hi : Inv h R) (htriv : h.IsTrivial b)
    (hsrc : h.IsTrivial src) (hR : R b = k₁ ++ k₂) (hit : it = k₂.headD b) (hlen : len < 2 ^ 64)
    (hfull : h.Full (R src)) (hself : src = b → it ≠ b → offset < h.lenOf it)
    (hmake : MakesTransfer env h b alg) :
    Yields (insertBufferLoop env alg b it offset src len) h
      (Transfers env b src h R len (Refused env) (h.before k₁ k₂ it offset)
        (h.behind k₂ it offset) (it ≠ b → offset < h.lenOf it) (it = b)) := by
  unfold insertBufferLoop
  refine Yields.step (bufferGetIterator_run hsrc hi.core.links) ?_
  refine Yields.loop
    (I := fun n s h' => n = s.len ∧ ∃ R' l₁ l₂ m₁ m₂ out,
      TransferInv Start b src it offset len h R k₁ k₂ s h' R' l₁ l₂ m₁ m₂ out)
    ?_ _ len _ _ ⟨rfl, R, k₁, k₂, [], R src, [], TransferInv.init law hi hR hit hfull⟩
    (Nat.lt_succ_self _)
  rintro n s h' ⟨rfl, R', l₁, l₂, m₁, m₂, out, t⟩
  have hsum := t.sum
  have hsrc' := hsrc.congr t.grown.frame.kind
  have hend : s.srcIt = src ↔ m₂ = [] := by
    rw [t.srcIt]
    exact t.grown.core.links.headD_eq_iff hsrc'.isSome t.source
  by_cases hz : s.len = 0 ∨ m₂ = []
  · unfold insertBufferRound bufferIsEndIterator trivialBufferIsEndIterator
    rw [if_pos (by simpa [hend] using hz)]
    exact yields_pure.mpr ⟨by omega, fun _ => ⟨fun hne hk => absurd (t.done hz hne) hk, R', out,
      t.length, t.bytes, t.grown⟩⟩
  · rw [not_or] at hz
    obtain ⟨hl, hm₂⟩ := hz
    obtain ⟨m₃, rfl⟩ : ∃ m₃, m₂ = s.srcIt :: m₃ := by
      cases m₂ with
      | nil => exact absurd rfl hm₂
      | cons p m₃ => exact ⟨m₃, by rw [t.srcIt]; rfl⟩
    obtain ⟨B, hB, hop⟩ := htriv.congr t.grown.frame.kind
    have hspR : s.srcIt ∈ R' src := by simp [t.source]
    have hplive := t.grown.core.links.node_live hsrc'.isSome (List.mem_cons_of_mem src hspR)
    have hpdata := t.grown.core.views.data hplive (t.grown.core.links.page hspR)
    have hoffle := t.srcOffset
    have hbounds : 0 < alg.cut B.strategy.pageSize (h'.lenOf s.srcIt) s.srcOffset s.len ∧
        alg.cut B.strategy.pageSize (h'.lenOf s.srcIt) s.srcOffset s.len ≤ s.len := law.bounds
      (t.grown.full_source hfull hself s.srcIt hspR) (Nat.pos_of_ne_zero hl) (t.notEnd hm₂)
      (by omega)
    -- a source of its own is as it was
    have hsame : src ≠ b → Same h h' s.srcIt := fun hne =>
      t.grown.frame.same hne (by rw [← t.grown.frame.ring hne]; exact hspR)
    have hfits : src ≠ b → s.srcOffset + alg.cut B.strategy.pageSize (h'.lenOf s.srcIt)
        s.srcOffset s.len ≤ h.lenOf s.srcIt := by
      intro hne
      obtain ⟨hstart, -, hlt, -⟩ := t.reading hne hl
      rw [(hsame hne).len]
      exact law.fits (hlt hm₂) hstart
    generalize hn : alg.cut B.strategy.pageSize (h'.lenOf s.srcIt) s.srcOffset s.len = n
      at hbounds hfits
    have hcut : src ≠ b → alg.cut B.strategy.pageSize (h.lenOf s.srcIt) s.srcOffset s.len = n :=
      fun hne => by rw [← (hsame hne).len, hn]
    refine (insertBufferRound_spec t.grown.core t.grown.totals hB hop t.target t.place hsrc'
      t.source hl hn.symm hbounds.1
      (hmake h' R' s.srcIt n s.srcOffset t.grown.core t.grown.frame.kind hplive hpdata)).mono ?_
    rintro r h'' (⟨rfl, hr, hk⟩ | ⟨x, bs, n₁, n₂, j₁, j₂, i, hbs, hbytes, hj, hjm, hmove⟩)
    · refine ⟨by omega, fun hsmall => ?_⟩
      obtain ⟨k, hrev⟩ := hk (hsmall.resolve_right (fun hn => hn hr))
      refine ⟨fun _ _ => hr, R', out, t.length, t.bytes, ⟨k.core, k.totals,
        t.grown.frame.trans k.frame, Stable.trans t.grown.frame k.frame t.grown.stable k.stable,
        ?_, ?_, ?_⟩⟩
      · rw [flat_of_same k.same, t.grown.content]
      · intro hf hin p hp
        rw [(k.same p hp).len]
        exact t.grown.full hf hin p hp
      · intro he
        rw [hrev he, t.grown.revision he, flat_of_same k.same]
    · have hout : src ≠ b → out ++ bs = (h.flat (R src)).take (s.inserted + n) :=
        fun hne => t.take hne hl (hfits hne) hbytes
      have hring : src ≠ b → R src = m₁ ++ s.srcIt :: m₃ := fun hne => by
        rw [← t.grown.frame.ring hne, t.source]
      have hlen'' : src ≠ b → h''.lenOf s.srcIt = h.lenOf s.srcIt := fun hne => by
        rw [(i.frame.same hne hspR).len, (hsame hne).len]
      rcases hmove with ⟨rfl, hlast⟩ | ⟨rfl, halways, hlast⟩
      · refine ⟨s.len - n, by omega, rfl, _, n₁ ++ [x], n₂, j₁ ++ [s.srcIt], j₂, out ++ bs,
          t.step hR hB i hbs hbounds.1 hbounds.2 hout (by simp [hj]) ?_ (Nat.zero_le _) ?_⟩
        · intro hne
          have := t.full_source i hB hbounds.1 hbs hfull hself (j₂.headD src)
            (hj ▸ List.mem_append_right j₁
              (List.mem_cons_of_mem s.srcIt (headD_mem_of_ne_nil src hne)))
          omega
        · intro hne hl'
          obtain ⟨rfl, rfl⟩ := hjm hne
          obtain ⟨hstart, hat, hlt, -⟩ := t.reading hne hl
          have hpage : s.srcOffset + n = h.lenOf s.srcIt := by
            rcases hlast with ha | he
            · have hw := law.whole (hlt hm₂) hstart ha (by rw [hcut hne]; exact hl')
              rwa [hcut hne] at hw
            · rw [he, hlen'' hne]
          refine ⟨law.zero, ?_, fun hm₃ => ?_, fun _ => rfl⟩
          · rw [Heap.flat_append, Heap.flat_cons, Heap.flat_nil, List.append_nil,
              List.length_append, Heap.length_pageBytes]
            omega
          · refine hfull _ ?_
            rw [hring hne]
            exact List.mem_append_right _ (List.mem_cons_of_mem _ (headD_mem_of_ne_nil src hm₃))
      · refine ⟨s.len - n, by omega, rfl, _, n₁ ++ [x], n₂, j₁, s.srcIt :: j₂, out ++ bs,
          t.step hR hB i hbs hbounds.1 hbounds.2 hout hj (fun _ => hlast) (by omega) ?_⟩
        intro hne hl'
        obtain ⟨rfl, rfl⟩ := hjm hne
        obtain ⟨hstart, hat, hlt, -⟩ := t.reading hne hl
        have hpage : s.srcOffset + n ≠ h.lenOf s.srcIt := by
          rw [← hlen'' hne]
          exact hlast
        have hle := hfits hne
        refine ⟨?_, by omega, fun _ => ?_, fun hnil => absurd hnil (by simp)⟩
        · have hnx := law.next (hlt hm₂) hstart (by rw [hcut hne]; exact hpage)
            (by rw [hcut hne]; exact hl')
          rwa [hcut hne] at hnx
        · simp only [List.headD_cons]
          omega

end Loop

/-! ## The four algorithms -/

theorem makesTransfer_shared (hB : h.buffers b = some B) (hcow : B.strategy.cloneOnWrite = false)
    (cut : Nat → Nat → Nat → Nat → Nat) (always : Bool) :
    MakesTransfer env h b ⟨cut, makeSharedPage env, always⟩ := by
  intro h' R p n off hc hk hp hd
  obtain ⟨d, hd⟩ := Option.isSome_iff_exists.mp hd
  refine (makeSharedPage_spec hc hd n off).mono ?_
  rintro (- | x) h'' hpost
  · exact hpost
  · obtain ⟨m, hbytes, hdx, -, -⟩ := hpost
    have hpx : p ≠ x := by
      rintro rfl
      simp [m.fresh] at hp
    refine ⟨_, m, .inr ⟨p, hpx, ?_⟩, fun hw => ?_, rfl, hbytes⟩
    · rw [hdx, (m.quiet.same hpx).data, hd]
    · obtain ⟨σ, hσ, hcow'⟩ := hw
      rw [hk, Heap.kindOf, hB] at hσ
      have hstrategy := (Prod.mk.inj (Option.some.inj hσ)).1
      simp [← hstrategy, hcow] at hcow'

theorem makesTransfer_copied (htriv : h.IsTrivial b)
    (cut : Nat → Nat → Nat → Nat → Nat) (always : Bool) :
    MakesTransfer env h b ⟨cut, makeCopiedPage env b, always⟩ := by
  intro h' R p n off hc hk hp _
  refine (makeCopiedPage_spec hc (htriv.congr hk) hp n off).mono ?_
  rintro (- | x) h'' hpost
  · exact hpost
  · obtain ⟨v, m, hs, hv, hbytes⟩ := hpost
    exact ⟨v, m, .inl hs, fun _ => hs.inData, hv, hbytes⟩

theorem transferAlgorithm_law (env : Env) (b : Nat) (strategy : Strategy) :
    ∃ Start, CutLaw (transferAlgorithm env b strategy) Start := by
  unfold transferAlgorithm
  split
  · exact ⟨_, cutWhole_law _ _⟩
  · exact ⟨_, cutWhole_law _ _⟩
  · exact ⟨_, cutFragment_law _⟩
  · exact ⟨_, cutFragment_law _⟩

theorem transferAlgorithm_makes (hB : h.buffers b = some B) (hop : B.operations = .trivial) :
    MakesTransfer env h b (transferAlgorithm env b B.strategy) := by
  unfold transferAlgorithm
  split
  · next hcow _ => exact makesTransfer_shared hB hcow _ _
  · exact makesTransfer_copied ⟨B, hB, hop⟩ _ _
  · next hcow _ => exact makesTransfer_shared hB hcow _ _
  · exact makesTransfer_copied ⟨B, hB, hop⟩ _ _

theorem Transfers.reject {len : Nat} {Fails Inside AtEnd : Prop} {pre post : List UInt8}
    (hi : Inv h R) (hf : Fails) (hcontent : h.flat (R b) = pre ++ post) :
    Transfers env b src h R len Fails pre post Inside AtEnd 0 h :=
  ⟨Nat.zero_le _, fun _ => ⟨fun _ _ => hf, R, [], rfl, fun _ => rfl, Grown.refl hi hcontent⟩⟩

theorem Transfers.weaken {len k : Nat} {Fails Fails' Inside AtEnd : Prop}
    {pre post : List UInt8} (t : Transfers env b src h R len Fails pre post Inside AtEnd k h')
    (hf : Fails → Fails') : Transfers env b src h R len Fails' pre post Inside AtEnd k h' :=
  ⟨t.1, fun hs => ⟨fun hne hk => hf ((t.2 hs).1 hne hk), (t.2 hs).2⟩⟩

section Operations

variable (hi : Inv h R) (hB : h.buffers b = some B) (hop : B.operations = .trivial)
  (hsrc : h.IsTrivial src) (hfull : h.Full (R src))

include hi hB hop hsrc hfull

/-- `pb_trivial_buffer_insert_buffer`. -/
theorem trivialBufferInsertBuffer_spec (hR : R b = k₁ ++ k₂) (hit : it = k₂.headD b)
    {offset len : Nat} (hlen : len < 2 ^ 64)
    (hself : src = b → it ≠ b → offset < h.lenOf it) :
    Yields (trivialBufferInsertBuffer env b it offset src len) h
      (Transfers env b src h R len (Refused env ∨ it ≠ b ∧ B.strategy.rejectsInsert = true)
        (h.before k₁ k₂ it offset) (h.behind k₂ it offset)
        (it ≠ b → offset < h.lenOf it) (it = b)) := by
  obtain ⟨Start, law⟩ := transferAlgorithm_law env b B.strategy
  unfold trivialBufferInsertBuffer
  refine Yields.step (getBuffer_run hB) ?_
  split
  · next hrej =>
      exact yields_pure.mpr (Transfers.reject hi (.inr (insert_rejected hrej))
        (by rw [Heap.before_behind, hR]))
  · refine (insertBufferLoop_spec law hi ⟨B, hB, hop⟩ hsrc hR hit hlen hfull hself
      (transferAlgorithm_makes hB hop)).mono ?_
    exact fun _ _ ht => ht.weaken .inl

/-- `pb_trivial_buffer_write_buffer`. -/
theorem trivialBufferWriteBuffer_spec {len : Nat} (hlen : len < 2 ^ 64) :
    Yields (trivialBufferWriteBuffer env b src len) h
      (Transfers env b src h R len (Refused env ∨ B.strategy.rejectsWrite)
        (h.flat (R b)) [] True True) := by
  obtain ⟨Start, law⟩ := transferAlgorithm_law env b B.strategy
  unfold trivialBufferWriteBuffer
  refine Yields.step (getBuffer_run hB) ?_
  split
  · next hrej => exact yields_pure.mpr (Transfers.reject hi (.inr hrej) (by simp))
  · refine Yields.pure_bind ?_
    refine (insertBufferLoop_spec law hi ⟨B, hB, hop⟩ hsrc (show R b = R b ++ [] by simp) rfl
     
      hlen hfull (fun _ hne => absurd rfl hne) (transferAlgorithm_makes hB hop)).mono ?_
    rintro k h' ⟨hk, hpost⟩
    refine ⟨hk, fun hs => ?_⟩
    obtain ⟨hfails, R', out, hout, hbytes, g⟩ := hpost hs
    refine ⟨fun hne hne' => .inl (hfails hne hne'), R', out, hout, hbytes, ?_⟩
    exact ⟨g.core, g.totals, g.frame, g.stable, by simpa [Heap.before, Heap.behind] using g.content,
      fun hf _ => g.full hf (fun hne => absurd rfl hne), fun _ => g.revision rfl⟩

end Operations

end Pb
