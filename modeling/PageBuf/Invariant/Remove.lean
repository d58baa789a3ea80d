import PageBuf.Invariant.Insert

/-!
# Remove — taking bytes off a buffer

`seek`, `trim`, `clear` and `destroy`. A page that has lost all its bytes is
unlinked and destroyed, and its data goes with the last page that refers to
it; so these operations need counters that can count.
-/

namespace Pb

open StateRun Function Ring RefCount

variable {env : Env} {h h' h'' : Heap} {R R' : Nat → List Nat} {F X l₁ l₂ : List Nat}
  {b d p x r : Nat} {B : Buffer} {out : List UInt8}

/-! ## Counters that can count -/

/-- The 16-bit counters can count: no `pb_data` has more pages and no mmap
allocator more data and buffers. -/
structure Heap.Fits (h : Heap) : Prop where
  small : h.Small
  allocs : ∀ a, h.allocRefs a ≤ 65535

theorem Heap.Fits.canRelease (hf : h.Fits) (d : Nat) : h.CanRelease d := by
  intro a _ hone
  have := hf.allocs a
  omega

/-- Nothing on trivial buffers adds a user to an mmap allocator. -/
theorem Core.allocRefs_le (hc : Core h R F X) (w : World h h') {a : Nat}
    (hk : ∀ {c}, h'.bufferAllocatorOf c = some a → h.bufferAllocatorOf c = some a) :
    h'.allocRefs a ≤ h.allocRefs a := by
  have hdata : ∀ {d}, h'.allocatorOf d = some a → h.allocatorOf d = some a := by
    intro d hd
    obtain ⟨s, off, ob, hs, hop⟩ := Heap.allocatorOf_eq_some.mp hd
    exact Heap.allocatorOf_eq_some.mpr ⟨s, off, ob, w.mapped hs (by simp [hop]), hop⟩
  have hfresh : ∀ c, h.next ≤ c → h.bufferAllocatorOf c ≠ some a := by
    intro c hle hca
    have hlive : (h.kindOf c).isSome := by
      by_contra hn
      simp [Heap.bufferAllocatorOf, Option.not_isSome_iff_eq_none.mp hn] at hca
    have := hc.links.buffer_fresh (h.isSome_kindOf c ▸ hlive)
    omega
  have hfresh' : ∀ d, h.next ≤ d → h.allocatorOf d ≠ some a := by
    intro d hle hda
    obtain ⟨s, -, -, hs, -⟩ := Heap.allocatorOf_eq_some.mp hda
    have := hc.objs.freshData (d := d) (by rw [hs]; rfl)
    omega
  unfold Heap.allocRefs
  rw [← holders_extend w.next hfresh, ← holders_extend w.next hfresh']
  exact Nat.add_le_add (holders_mono (fun d _ => hdata)) (holders_mono (fun c _ => hk))

theorem Heap.Fits.of_refs (hf : h.Fits) (hc : Core h R F X) (w : World h h')
    (hk : h'.kindOf = h.kindOf) (hr : ∀ e, h'.refs e ≤ 65535) : h'.Fits where
  small := hr
  allocs := fun a => Nat.le_trans (hc.allocRefs_le w (fun {c} hca => by
    rwa [Heap.bufferAllocatorOf, hk] at hca)) (hf.allocs a)

theorem Heap.Fits.idle (hf : h.Fits) (hc : Core h R F X) (i : Idle h h') : h'.Fits :=
  hf.of_refs hc i.world i.kind (fun e => by
    rw [Heap.refs_congr (Heap.dataOf_congr i.pages) i.next hc.links.fresh]
    exact hf.small e)

/-- Fewer references fit as well. -/
theorem Heap.Fits.mono (hf : h.Fits) (hc : Core h R F X) (w : World h h')
    (hk : h'.kindOf = h.kindOf) (hx : h'.next = h.next)
    (hd : ∀ {p e}, h'.dataOf p = some e → h.dataOf p = some e) : h'.Fits :=
  hf.of_refs hc w hk (fun e => by
    refine Nat.le_trans ?_ (hf.small e)
    rw [Heap.refs, Heap.refs, hx]
    exact holders_mono (fun p _ => hd))

/-! ## Shortening and unlinking a page -/

/-- A change of one page that takes nothing but references away. -/
structure Cut (h h' : Heap) (x : Nat) : Prop where
  quiet : Quiet (fun p => p ≠ x) h h'
  next : h'.next = h.next
  dataOf : ∀ {p e}, h'.dataOf p = some e → h.dataOf p = some e

theorem Cut.kind (c : Cut h h' x) : h'.kindOf = h.kindOf := by
  funext e
  simp [Heap.kindOf, c.quiet.buffers]

theorem Cut.trans (c : Cut h h' x) (c' : Cut h' h'' x) : Cut h h'' x where
  quiet := c.quiet.trans c'.quiet
  next := c'.next.trans c.next
  dataOf := fun hd => c.dataOf (c'.dataOf hd)

theorem Cut.fits (c : Cut h h' x) (hc : Core h R F X) (hf : h.Fits) : h'.Fits :=
  hf.mono hc c.quiet.world c.kind c.next c.dataOf

/-- The vector of a page is cut to `n` bytes from `off` on. -/
theorem cutVec_spec {f : Page → Page} {off n : Nat} (hc : Core h R F X)
    (hx : (h.pages x).isSome) (hb : h.buffers x = none)
    (hf : ∀ P, h.pages x = some P →
      f P = { P with dataVec := ⟨(h.vecOf x).base.add off, n⟩ })
    (hle : off + n ≤ h.lenOf x) :
    ∃ h', modifyPage x f h = .ok ((), h') ∧ Core h' R F X ∧ Cut h h' x ∧ h'.lenOf x = n ∧
      h'.pageBytes x = ((h.pageBytes x).drop off).take n := by
  obtain ⟨h', hrun, e, hv, hn, hp⟩ :=
    setVec_run (v := ⟨(h.vecOf x).base.add off, n⟩) hx hf rfl hb
  have hvx : h'.vecOf x = ⟨(h.vecOf x).base.add off, n⟩ := by rw [hv, update_self]
  refine ⟨h', hrun, hc.edit e ?_ (hc.writable.edit e ?_), ⟨⟨e.world, e.buffers, ?_⟩, ?_, ?_⟩,
    ?_, ?_⟩
  · exact hc.links.congr hn hp (fun c => by rw [e.buffers]) e.live (by rw [e.rest])
  · intro c _ hin p hp
    rcases eq_or_ne p x with rfl | hne
    · exact (hin p hp).sub (congrFun e.dataOf p) e.shape hvx hle
    · refine (hin p hp).congr (congrFun e.dataOf p) ?_ (fun _ hs => by rwa [e.shape])
      rw [hv, update_of_ne hne]
  · intro p hp
    exact e.same (by rw [hv, update_of_ne hp])
  · rw [e.rest]
  · intro p c hpc
    rwa [e.dataOf] at hpc
  · rw [Heap.lenOf, hvx]
  · rw [Heap.pageBytes, Heap.lenOf, hvx, e.bytes, ← Heap.bytes_add_offset hle]

/-- **Unlinking** a page: the ring closes behind it and its reference is
given up. -/
theorem unlinkPage_spec (hc : Core h R F []) (hf : h.Fits) (hb : (h.buffers b).isSome)
    (hR : R b = l₁ ++ x :: l₂) :
    Yields (unlinkPage x) h (fun _ h' => Core h' (update R b (l₁ ++ l₂)) F [] ∧ Cut h h' x) := by
  have hxR : x ∈ R b := by simp [hR]
  have hlast : l₁.getLastD b ∈ b :: R b := by
    rw [hR]
    exact List.cons_subset_cons b (List.subset_append_left _ _) (getLastD_mem b l₁)
  have hhead : l₂.headD b ∈ b :: R b := by
    rw [hR]
    exact List.cons_subset_cons b (fun p hp => by simp [hp]) (headD_mem b l₂)
  have hxlive := hc.links.node_live hb (List.mem_cons_of_mem b hxR)
  obtain ⟨P, hP⟩ := Option.isSome_iff_exists.mp hxlive
  have hring := hc.links.ring hb
  rw [hR] at hring
  have hprv : P.prev = some (l₁.getLastD b) := by rw [← Heap.prevOf_eq hP, hring.prev_mem]
  have hnxt : P.next = some (l₂.headD b) := by rw [← Heap.nextOf_eq hP, hring.next_mem]
  unfold unlinkPage
  refine Yields.step (getPage_run hP) ?_
  refine unlink_run hP hprv hnxt (hc.links.node_live hb hlast) (hc.links.node_live hb hhead) ?_
  intro h₁ e hv hn hp
  have hnext : h₁.next = h.next := by rw [e.rest]
  have hc₁ : Core h₁ (update R b (l₁ ++ l₂)) (x :: F) [] := by
    refine hc.edit e (hc.links.unlink hR hb hn hp e.live e.buffers hnext)
      (hc.writable.edit e ?_)
    intro c _ hin q hq
    refine (hin q ?_).congr (congrFun e.dataOf q) (congrFun hv q) (fun _ hs => by rwa [e.shape])
    rcases eq_or_ne c b with rfl | hne
    · rw [update_self] at hq
      rw [hR]
      simp only [List.mem_append, List.mem_cons] at hq ⊢
      tauto
    · rwa [update_of_ne hne] at hq
  have q₁ : Quiet (fun p => p ≠ x) h h₁ :=
    ⟨e.world, e.buffers, fun {p} _ => e.same (congrFun hv p)⟩
  have c₁ : Cut h h₁ x := ⟨q₁, hnext, fun {p e'} he => by rwa [e.dataOf] at he⟩
  have hf₁ := c₁.fits hc hf
  obtain ⟨d, -, hrun⟩ := pageDestroy_spec hc₁
  refine hrun.mono ?_
  rintro _ h₃ ⟨h₂, dr, rfl, hpost⟩
  have hle : h₁.count [] d ≤ 65536 := by
    have := hf₁.small d
    simp only [Heap.count, List.count_nil]
    omega
  obtain ⟨hc₂, q₂⟩ := hpost hle (fun _ => hf₁.canRelease d)
  refine ⟨hc₂, c₁.trans ⟨q₂, dr.next, fun {q a} hqa => ?_⟩⟩
  rw [Heap.dataOf_setPage, Heap.dataOf_congr dr.pages] at hqa
  rcases eq_or_ne q x with rfl | hne
  · simp at hqa
  · rwa [update_of_ne hne] at hqa

/-! ## One round of `seek` and `trim` -/

/-- The content of `b` has become `out`, and no other buffer was touched. The
revision was incremented `r` times. -/
structure Became (b : Nat) (h h' : Heap) (R R' : Nat → List Nat) (r : Nat)
    (out : List UInt8) : Prop where
  core : Core h' R' [] []
  totals : Totals h' R'
  frame : Frame b h h' R R'
  content : h'.flat (R' b) = out
  full : h.Full (R b) → h'.Full (R' b)
  fits : h.Fits → h'.Fits
  revision : h'.revOf b = h.revOf b + r

theorem Became.refl (hi : Inv h R) (b : Nat) : Became b h h R R 0 (h.flat (R b)) :=
  ⟨hi.core, hi.totals, Frame.refl b h R, rfl, fun hf => hf, fun hf => hf, rfl⟩

theorem Became.inv (s : Became b h h' R R' r out) : Inv h' R' := ⟨s.core, s.totals⟩

theorem Became.trans {R'' : Nat → List Nat} {r' : Nat} {out' : List UInt8}
    (s : Became b h h' R R' r out) (s' : Became b h' h'' R' R'' r' out') :
    Became b h h'' R R'' (r + r') out' where
  core := s'.core
  totals := s'.totals
  frame := s.frame.trans s'.frame
  content := s'.content
  full := fun hf => s'.full (s.full hf)
  fits := fun hf => s'.fits (s.fits hf)
  revision := by rw [s'.revision, s.revision, Nat.add_assoc]

/-- A page of `b` has been cut to `n` bytes less, and is gone when none was
left; `dataSize` has followed. -/
theorem Cut.became {n : Nat} {bs : List UInt8} (c : Cut h h' x) (mid : List Nat)
    (hc : Core h R [] []) (ht : Totals h R) (hB : h.buffers b = some B)
    (hR : R b = l₁ ++ x :: l₂) (hc' : Core h' (update R b (l₁ ++ mid ++ l₂)) [] [])
    (hn : n ≤ h.lenOf x) (hmid : h'.flat mid = bs) (hbs : bs.length = h.lenOf x - n)
    (hpos : h'.Full mid) :
    Became b h (h'.setBuffer b (some { B with dataSize := wrapSub B.dataSize n })) R
      (update R b (l₁ ++ mid ++ l₂)) 0 (h.flat l₁ ++ bs ++ h.flat l₂) := by
  have hb : (h.buffers b).isSome := by rw [hB]; rfl
  have hxR : x ∈ R b := by simp [hR]
  have hB' : h'.buffers b = some B := by rw [c.quiet.buffers, hB]
  have hnd := hc.links.nodup hb
  rw [hR] at hnd
  have hl₁ : ∀ p ∈ l₁, Same h h' p := fun p hp =>
    c.quiet.same (fun he => (List.nodup_append.mp hnd).2.2 p hp x (by simp) he)
  have hl₂ : ∀ p ∈ l₂, Same h h' p := fun p hp =>
    c.quiet.same (fun he => (List.nodup_cons.mp (List.nodup_append.mp hnd).2.1).1 (he ▸ hp))
  have hother : ∀ {c' p}, c' ≠ b → p ∈ R c' → Same h h' p := fun hne hp =>
    c.quiet.same (fun he => hne (hc.links.disj (he ▸ hp) hxR))
  have i : Idle h' (h'.setBuffer b (some { B with dataSize := wrapSub B.dataSize n })) :=
    Idle.setBuffer hB' rfl
  have hsum : (h.flat (R b)).length = (h.flat l₁).length + h.lenOf x + (h.flat l₂).length := by
    rw [hR, Heap.flat_append, Heap.flat_cons, List.length_append, List.length_append,
      Heap.length_pageBytes, Nat.add_assoc]
  have hflat : h'.flat (l₁ ++ mid ++ l₂) = h.flat l₁ ++ bs ++ h.flat l₂ := by
    rw [Heap.flat_append, Heap.flat_append, hmid, flat_of_same hl₁, flat_of_same hl₂]
  refine ⟨hc'.idle i, ?_, ?_, ?_, ?_, ?_, ?_⟩
  · refine ht.setBuffer ?_ (by rw [← c.quiet.buffers]; rfl) ?_
    · show wrapSub B.dataSize n = (List.map h'.lenOf _).sum
      have hsize : B.dataSize = (h.flat (R b)).length := by rw [ht b B hB, Heap.length_flat]
      rw [update_self, ← Heap.length_flat, hflat, wrapSub_of_le (by omega), List.length_append,
        List.length_append, hbs]
      omega
    · intro c' hne
      exact ⟨update_of_ne hne _ _, fun p hp => (hother hne hp).len⟩
  · have f : Frame b h h' R (update R b (l₁ ++ mid ++ l₂)) :=
      ⟨c.quiet.world, c.kind, fun hne => update_of_ne hne _ _,
        fun _ => by rw [c.quiet.buffers], hother, by
          rw [Heap.revOf, Heap.revOf, c.quiet.buffers]⟩
    exact f.trans (Frame.setBuffer hB' rfl (Nat.le_refl _))
  · rw [update_self]
    exact hflat
  · intro hfull q hq
    rw [update_self] at hq
    show 0 < h'.lenOf q
    simp only [List.mem_append] at hq
    rcases hq with (hq | hq) | hq
    · rw [(hl₁ q hq).len]
      exact hfull q (by simp [hR, hq])
    · exact hpos q hq
    · rw [(hl₂ q hq).len]
      exact hfull q (by simp [hR, hq])
  · exact fun hf => (c.fits hc hf).idle hc' i
  · rw [Heap.revOf_eq hB, Heap.revOf_eq (h := h'.setBuffer b _) (update_self _ _ _)]
    rfl

/-- What `seek` and `trim` do to the page they stand at: `n` bytes go, from
the front (`off = n`) or from the end (`off = 0`), and the page with its last
byte. -/
theorem removeRound_spec {f : Page → Page} {move : PbM Nat} {s : RemoveLoop}
    {n : Nat} (off it' : Nat) (hc : Core h R [] []) (ht : Totals h R) (hf : h.Fits)
    (hB : h.buffers b = some B) (hR : R b = l₁ ++ s.it :: l₂) (hpos : 0 < n)
    (hn : n ≤ h.lenOf s.it) (hoff : off ≤ n)
    (hvec : ∀ P, h.pages s.it = some P → f P = { P with
      dataVec := ⟨(h.vecOf s.it).base.add off, h.lenOf s.it - n⟩ })
    (hmove : ∀ h', Core h' R [] [] → h'.kindOf = h.kindOf → move h' = .ok (it', h')) :
    Yields (do
      modifyPage s.it f
      let it ←
        if h.lenOf s.it - n = 0 then do
          let it ← move
          unlinkPage s.it
          pure it
        else pure s.it
      if n = 0 then pure (.inr s.removed)
      else do
        trivialBufferDecrementDataSize b n
        pure (.inl ⟨it, s.len - n, s.removed + n⟩)) h (fun (q : RemoveLoop ⊕ Nat) h' =>
      q = .inl ⟨if h.lenOf s.it = n then it' else s.it, s.len - n, s.removed + n⟩ ∧
        Became b h h' R
          (update R b (l₁ ++ (if h.lenOf s.it = n then [] else [s.it]) ++ l₂)) 0
          (h.flat l₁ ++ ((h.pageBytes s.it).drop off).take (h.lenOf s.it - n) ++ h.flat l₂)) := by
  have hb : (h.buffers b).isSome := by rw [hB]; rfl
  have hsR : s.it ∈ R b := by simp [hR]
  have hlive := hc.links.node_live hb (List.mem_cons_of_mem b hsR)
  obtain ⟨h₁, hr₁, hc₁, c₁, hlen, hbytes⟩ := cutVec_spec hc hlive (hc.links.page hsR)
    hvec (by omega)
  have hf₁ := c₁.fits hc hf
  have hB₁ : h₁.buffers b = some B := by rw [c₁.quiet.buffers, hB]
  have hbs : (((h.pageBytes s.it).drop off).take (h.lenOf s.it - n)).length
      = h.lenOf s.it - n := by
    rw [List.length_take, List.length_drop, Heap.length_pageBytes]
    omega
  refine Yields.step hr₁ ?_
  by_cases hz : h.lenOf s.it = n
  · -- the last byte has gone
    simp only [hz, Nat.sub_self, if_true]
    refine Yields.step (hmove h₁ hc₁ c₁.kind) ?_
    refine Yields.bind (unlinkPage_spec hc₁ hf₁ (by rw [hB₁]; rfl) hR) ?_
    rintro _ h₂ ⟨hc₂, c₂⟩
    have c := c₁.trans c₂
    refine Yields.pure_bind ?_
    rw [if_neg (by omega)]
    refine Yields.step (modifyBuffer_run (B := B) (by rw [c.quiet.buffers, hB]) _)
      (yields_pure.mpr ⟨rfl, ?_⟩)
    rw [hz, Nat.sub_self] at hbs
    refine c.became [] hc ht hB hR (by simpa using hc₂) hn ?_ (by simp [hz]) ?_
    · rw [List.eq_nil_of_length_eq_zero hbs]
      rfl
    · intro q hq
      simp at hq
  · rw [if_neg (by omega), if_neg hz, if_neg hz]
    refine Yields.pure_bind ?_
    dsimp only
    rw [if_neg (by omega)]
    refine Yields.step (modifyBuffer_run hB₁ _) (yields_pure.mpr ⟨rfl, ?_⟩)
    refine c₁.became [s.it] hc ht hB hR ?_ hn ?_ hbs ?_
    · have : update R b (l₁ ++ [s.it] ++ l₂) = R := by
        rw [List.append_assoc, List.singleton_append, ← hR, update_eq_self]
      rw [this]
      exact hc₁
    · rw [Heap.flat_cons, hbytes, Heap.flat_nil, List.append_nil]
    · intro q hq
      rw [List.mem_singleton.mp hq, hlen]
      omega

/-! ## `seek` and `trim` -/

/-- What has been removed once `n` of at most `len` bytes are gone: the
content is `out`, and nothing has happened as long as `n` is 0. -/
structure RemoveInv (b : Nat) (h h' : Heap) (R R' : Nat → List Nat) (len : Nat)
    (s : RemoveLoop) (out : List UInt8) : Prop where
  sum : s.removed + s.len = len
  le : s.removed ≤ (h.flat (R b)).length
  became : Became b h h' R R' 0 out
  idle : s.removed = 0 → h' = h ∧ R' = R

/-- One more round. -/
theorem RemoveInv.step {R'' : Nat → List Nat} {len m it : Nat} {s : RemoveLoop}
    {out' : List UInt8} (t : RemoveInv b h h' R R' len s out)
    (hs : Became b h' h'' R' R'' 0 out') (hpos : 0 < m) (hm : m ≤ s.len)
    (hle : s.removed + m ≤ (h.flat (R b)).length) :
    RemoveInv b h h'' R R'' len ⟨it, s.len - m, s.removed + m⟩ out' where
  sum := by
    have := t.sum
    dsimp only
    omega
  le := hle
  became := t.became.trans hs
  idle := fun hz => by
    dsimp only at hz
    omega

/-- A loop of `seek` or `trim` from the bump on. -/
theorem bumpIfPositive_spec (s : Became b h h' R R' 0 out) (hB : (h'.buffers b).isSome) (k : Nat) :
    Yields (bumpIfPositive b k) h' (fun _ h'' => (k = 0 → h'' = h') ∧
      Became b h h'' R R' (if k = 0 then 0 else 1) out) := by
  unfold bumpIfPositive
  rcases Nat.eq_zero_or_pos k with rfl | hpos
  · exact yields_pure.mpr ⟨fun _ => rfl, s⟩
  · obtain ⟨B, hB⟩ := Option.isSome_iff_exists.mp hB
    have hne : k ≠ 0 := by omega
    rw [if_pos hpos, if_neg hne]
    refine Yields.intro (modifyBuffer_run hB _) ⟨fun hz => absurd hz hne, ?_⟩
    have sb : Became b h' (h'.bump b B 1) R' R' 1 out := ⟨s.core.bump hB 1, s.totals.bump hB 1, Frame.bump hB 1,
      (flat_of_same (fun p _ => Same.setBuffer _ p)).trans s.content, fun hf => hf,
      fun hf => hf.idle s.core (Idle.bump hB 1),
      Heap.revOf_bump hB 1⟩
    exact s.trans sb

/-- What `seek` and `trim` return and leave behind: `k` bytes are gone, all
that were asked for and there unless the buffer rejects the call. -/
def Removes (b : Nat) (h : Heap) (R : Nat → List Nat) (len : Nat) (rejects : Bool)
    (keep : Nat → List UInt8) (k : Nat) (h' : Heap) : Prop :=
  k ≤ min len (h.flat (R b)).length ∧ (k ≠ min len (h.flat (R b)).length → rejects = true) ∧
    ∃ R', Became b h h' R R' (if k = 0 then 0 else 1) (keep k) ∧ Stable b h h' R R'

theorem RemoveInv.finish {len : Nat} {s : RemoveLoop} {rejects : Bool}
    (keep : Nat → List UInt8) (t : RemoveInv b h h' R R' len s (keep s.removed)) (hB : (h.buffers b).isSome)
    (hend : s.len = 0 ∨ R' b = []) (hkeep : ∀ n, n ≤ (h.flat (R b)).length →
      (keep n).length = (h.flat (R b)).length - n) :
    Yields (do
      bumpIfPositive b s.removed
      pure s.removed) h' (Removes b h R len rejects keep) := by
  have hsum := t.sum
  have hle := t.le
  have hB' : (h'.buffers b).isSome := by
    rw [Heap.buffers_isSome_congr t.became.frame.kind]
    exact hB
  have hall : s.removed = min len (h.flat (R b)).length := by
    rcases hend with hz | hnil
    · omega
    · have hc := t.became.content
      rw [hnil, Heap.flat_nil] at hc
      have hk := hkeep s.removed hle
      rw [← hc, List.length_nil] at hk
      omega
  refine Yields.bind (bumpIfPositive_spec t.became hB' s.removed) ?_
  rintro _ h'' ⟨hidle, hs⟩
  refine yields_pure.mpr ⟨by omega, fun hne => absurd hall hne, R', hs, ?_⟩
  rcases Nat.eq_zero_or_pos s.removed with hz | hpos
  · obtain ⟨rfl, rfl⟩ := t.idle hz
    rw [hidle hz]
    exact Stable.refl b h' R'
  · intro he
    have := hs.revision
    rw [if_neg (by omega)] at this
    omega

theorem removes_reject {len : Nat} {keep : Nat → List UInt8} {rejects : Bool} (hi : Inv h R)
    (hr : rejects = true) (hkeep : keep 0 = h.flat (R b)) :
    Removes b h R len rejects keep 0 h :=
  ⟨Nat.zero_le _, fun _ => hr, R, by rw [hkeep]; exact Became.refl hi b, Stable.refl b h R⟩

section Operations

variable (hi : Inv h R) (hf : h.Fits) (hfull : h.Full (R b)) (hB : h.buffers b = some B)
  (hop : B.operations = .trivial)

include hi hf hfull hB hop

/-- `pb_trivial_buffer_seek`. -/
theorem trivialBufferSeek_spec (len : Nat) :
    Yields (trivialBufferSeek env b len) h
      (Removes b h R len B.strategy.rejectsSeek (fun k => (h.flat (R b)).drop k)) := by
  have htriv : h.IsTrivial b := ⟨B, hB, hop⟩
  unfold trivialBufferSeek
  refine Yields.step (getBuffer_run hB) ?_
  split
  · next hrej => exact yields_pure.mpr (removes_reject hi hrej rfl)
  refine Yields.step (bufferGetIterator_run htriv hi.core.links) ?_
  refine Yields.bind (P := fun k h' => ∃ s R', k = s.removed ∧ (s.len = 0 ∨ R' b = []) ∧
    RemoveInv b h h' R R' len s ((h.flat (R b)).drop s.removed)) ?_ ?_
  · refine Yields.loop
      (I := fun n s h' => n = s.len ∧ ∃ R', s.it = (R' b).headD b ∧
        RemoveInv b h h' R R' len s ((h.flat (R b)).drop s.removed))
      ?_ _ len _ _ ?_ (Nat.lt_succ_self _)
    · rintro n s h' ⟨rfl, R', hit, t⟩
      have hc := t.became.core
      have htriv' := htriv.congr t.became.frame.kind
      have hend : s.it = b ↔ R' b = [] := by
        rw [hit]
        exact hc.links.headD_eq_iff htriv'.isSome (show R' b = [] ++ R' b from rfl)
      unfold seekRound bufferIsEndIterator trivialBufferIsEndIterator
      by_cases hz : s.len = 0 ∨ R' b = []
      · rw [if_pos (by simpa [hend] using hz)]
        exact yields_pure.mpr ⟨s, R', rfl, hz, t⟩
      · rw [if_neg (by simpa [hend] using hz)]
        rw [not_or] at hz
        obtain ⟨B', hB', hop'⟩ := htriv'
        obtain ⟨l, hl⟩ : ∃ l, R' b = [] ++ s.it :: l := by
          cases hRb : R' b with
          | nil => exact absurd hRb hz.2
          | cons p l => exact ⟨l, by rw [hit, hRb]; rfl⟩
        have hsR : s.it ∈ R' b := by simp [hl]
        have hlive := hc.links.node_live (b := b) (by rw [hB']; rfl)
          (List.mem_cons_of_mem b hsR)
        have hpos := t.became.full hfull s.it hsR
        have hsum := t.sum
        have hcut : ∃ m, (if h'.lenOf s.it < s.len then h'.lenOf s.it else s.len) = m ∧
            0 < m ∧ m ≤ h'.lenOf s.it ∧ m ≤ s.len :=
          ⟨_, rfl, by split <;> omega⟩
        refine Yields.step (pageGetLen_run hlive) ?_
        obtain ⟨m, hm, hmpos, hmle, hmlen⟩ := hcut
        dsimp only
        rw [hm]
        refine (removeRound_spec m (l.headD b) hc t.became.totals
          (t.became.fits hf) hB' hl hmpos hmle (Nat.le_refl _) (fun P hP => ?_)
          (fun h₁ hc₁ hk => ?_)).mono ?_
        · rw [Heap.lenOf, Heap.vecOf_eq hP]
        · exact bufferNextIterator_run (Heap.IsTrivial.congr ⟨B', hB', hop'⟩ hk) hc₁.links hl
        · rintro q h'' ⟨rfl, hs⟩
          have hcontent := t.became.content
          rw [hl, List.nil_append, Heap.flat_cons] at hcontent
          have hlen := congrArg List.length hcontent
          rw [List.length_append, Heap.length_pageBytes, List.length_drop] at hlen
          rw [Heap.flat_nil, List.nil_append, List.nil_append, List.take_of_length_le (by simp),
            ← List.drop_append_of_le_length (by simpa using hmle), hcontent,
            List.drop_drop] at hs
          refine ⟨s.len - m, by omega, rfl, _, ?_, t.step hs hmpos hmlen (by omega)⟩
          rw [update_self]
          split <;> simp
    · exact ⟨rfl, R, rfl, by simp, Nat.zero_le _, Became.refl hi b, fun _ => ⟨rfl, rfl⟩⟩
  · rintro k h' ⟨s, R', rfl, hend, t⟩
    exact t.finish (fun k => (h.flat (R b)).drop k) (by rw [hB]; rfl) hend
      (fun n _ => List.length_drop)

/-- `pb_trivial_buffer_trim`. -/
theorem trivialBufferTrim_spec (len : Nat) :
    Yields (trivialBufferTrim env b len) h
      (Removes b h R len B.strategy.rejectsTrim
        (fun k => (h.flat (R b)).take ((h.flat (R b)).length - k))) := by
  have htriv : h.IsTrivial b := ⟨B, hB, hop⟩
  have hkeep : ∀ n, n ≤ (h.flat (R b)).length →
      ((h.flat (R b)).take ((h.flat (R b)).length - n)).length
        = (h.flat (R b)).length - n := by
    intro n hn
    rw [List.length_take]
    omega
  unfold trivialBufferTrim
  refine Yields.step (getBuffer_run hB) ?_
  split
  · next hrej => exact yields_pure.mpr (removes_reject hi hrej (by simp))
  refine Yields.pure_bind ?_
  refine Yields.step (bufferPrevIterator_run htriv hi.core.links
    (show R b = R b ++ [] by simp)) ?_
  refine Yields.bind (P := fun k h' => ∃ s R', k = s.removed ∧ (s.len = 0 ∨ R' b = []) ∧
    RemoveInv b h h' R R' len s
      ((h.flat (R b)).take ((h.flat (R b)).length - s.removed))) ?_ ?_
  · refine Yields.loop
      (I := fun n s h' => n = s.len ∧ ∃ R', s.it = (R' b).getLastD b ∧
        RemoveInv b h h' R R' len s
          ((h.flat (R b)).take ((h.flat (R b)).length - s.removed)))
      ?_ _ len _ _ ?_ (Nat.lt_succ_self _)
    · rintro n s h' ⟨rfl, R', hit, t⟩
      have hc := t.became.core
      have htriv' := htriv.congr t.became.frame.kind
      have hend : s.it = b ↔ R' b = [] := by
        rw [hit]
        exact hc.links.getLastD_eq_iff htriv'.isSome
      unfold trimRound bufferIsEndIterator trivialBufferIsEndIterator
      by_cases hz : s.len = 0 ∨ R' b = []
      · rw [if_pos (by simpa [hend] using hz)]
        exact yields_pure.mpr ⟨s, R', rfl, hz, t⟩
      · rw [if_neg (by simpa [hend] using hz)]
        rw [not_or] at hz
        obtain ⟨B', hB', hop'⟩ := htriv'
        obtain ⟨l, hl⟩ : ∃ l, R' b = l ++ s.it :: [] := by
          rcases List.eq_nil_or_concat' (R' b) with hnil | ⟨l, p, hl⟩
          · exact absurd hnil hz.2
          · exact ⟨l, by rw [hit, hl, getLastD_concat]⟩
        have hsR : s.it ∈ R' b := by simp [hl]
        have hlive := hc.links.node_live (b := b) (by rw [hB']; rfl)
          (List.mem_cons_of_mem b hsR)
        have hpos := t.became.full hfull s.it hsR
        have hsum := t.sum
        have hcut : ∃ m, (if h'.lenOf s.it < s.len then h'.lenOf s.it else s.len) = m ∧
            0 < m ∧ m ≤ h'.lenOf s.it ∧ m ≤ s.len :=
          ⟨_, rfl, by split <;> omega⟩
        refine Yields.step (pageGetLen_run hlive) ?_
        obtain ⟨m, hm, hmpos, hmle, hmlen⟩ := hcut
        dsimp only
        rw [hm]
        refine (removeRound_spec 0 (l.getLastD b) hc t.became.totals
          (t.became.fits hf) hB' hl hmpos hmle (Nat.zero_le _) (fun P hP => ?_)
          (fun h₁ hc₁ hk => ?_)).mono ?_
        · rw [Heap.lenOf, Heap.vecOf_eq hP]
          rfl
        · exact bufferPrevIterator_run (Heap.IsTrivial.congr ⟨B', hB', hop'⟩ hk) hc₁.links hl
        · rintro q h'' ⟨rfl, hs⟩
          have hcontent := t.became.content
          rw [hl, Heap.flat_append, Heap.flat_cons, Heap.flat_nil, List.append_nil] at hcontent
          have hlen := congrArg List.length hcontent
          rw [List.length_append, Heap.length_pageBytes, hkeep _ t.le] at hlen
          have htake : h'.flat l ++ ((h'.pageBytes s.it).drop 0).take (h'.lenOf s.it - m)
              ++ h'.flat [] = (h.flat (R b)).take
                ((h.flat (R b)).length - (s.removed + m)) := by
            rw [Heap.flat_nil, List.append_nil, List.drop_zero,
              ← List.take_length_add_append, hcontent, List.take_take]
            congr 1
            omega
          rw [htake] at hs
          refine ⟨s.len - m, by omega, rfl, _, ?_, t.step hs hmpos hmlen (by omega)⟩
          rw [update_self]
          split
          · simp
          · rw [List.append_nil, getLastD_concat]
    · exact ⟨rfl, R, rfl, by simp, Nat.zero_le _, by simpa using Became.refl hi b,
        fun _ => ⟨rfl, rfl⟩⟩
  · rintro k h' ⟨s, R', rfl, hend, t⟩
    exact t.finish (fun k => (h.flat (R b)).take ((h.flat (R b)).length - k))
      (by rw [hB]; rfl) hend hkeep

end Operations

/-! ## `clear` -/

/-- `pb_trivial_buffer_clear_impl`, for the iterators of either class. -/
theorem trivialBufferClearImpl_spec {getIterator : PbM Nat} {nextIterator : Nat → PbM Nat}
    (hi : Inv h R) (hf : h.Fits) (hB : h.buffers b = some B)
    (hget : ∀ h' R', Core h' R' [] [] → h'.kindOf = h.kindOf →
      getIterator h' = .ok ((R' b).headD b, h'))
    (hnext : ∀ h' R' p l, Core h' R' [] [] → h'.kindOf = h.kindOf → R' b = p :: l →
      nextIterator p h' = .ok (l.headD b, h')) :
    Yields (trivialBufferClearImpl b getIterator nextIterator (fun h => h.next + 1)) h
      (fun _ h' => Became b h h' R (update R b []) 1 []) := by
  unfold trivialBufferClearImpl
  have hB₁ : (h.bump b B 1).buffers b = some { B with dataRevision := B.dataRevision + 1 } :=
    update_self _ _ _
  have hrun₁ : trivialBufferIncrementDataRevision b h = .ok ((), h.bump b B 1) :=
    modifyBuffer_run hB _
  refine Yields.step hrun₁ (Yields.step (modifyBuffer_run hB₁ _) ?_)
  have hB₂ : ((h.bump b B 1).setBuffer b (some { B with
      dataRevision := B.dataRevision + 1, dataSize := 0 })).buffers b
        = some { B with dataRevision := B.dataRevision + 1, dataSize := 0 } := update_self _ _ _
  have i : Idle h ((h.bump b B 1).setBuffer b (some { B with
      dataRevision := B.dataRevision + 1, dataSize := 0 })) :=
    (Idle.bump hB 1).trans (Idle.setBuffer hB₁ rfl)
  have f : Frame b h ((h.bump b B 1).setBuffer b (some { B with
      dataRevision := B.dataRevision + 1, dataSize := 0 })) R R :=
    (Frame.bump hB 1).trans (Frame.setBuffer hB₁ rfl (Nat.le_refl _))
  generalize (h.bump b B 1).setBuffer b (some { B with
      dataRevision := B.dataRevision + 1, dataSize := 0 }) = h₂ at hB₂ i f ⊢
  have hc₂ : Core h₂ R [] [] := hi.core.idle i
  have hf₂ : h₂.Fits := hf.idle hi.core i
  refine Yields.step (hget h₂ R hc₂ i.kind) (Yields.step get_run ?_)
  refine Yields.loop
    (I := fun n it h' => ∃ l, n = l.length ∧ it = l.headD b ∧ Core h' (update R b l) [] [] ∧
      h'.Fits ∧ h'.buffers = h₂.buffers ∧ Frame b h h' R (update R b l))
    ?_ _ (R b).length _ _ ?_ ?_
  · rintro n it h' ⟨l, rfl, rfl, hc, hf', hbuf, fr⟩
    have hB' : h'.buffers b = some { B with
        dataRevision := B.dataRevision + 1, dataSize := 0 } := by rw [hbuf, hB₂]
    have hb : (h'.buffers b).isSome := by rw [hB']; rfl
    unfold clearRound bufferIsEndIterator trivialBufferIsEndIterator
    cases l with
    | nil =>
        rw [if_pos (by simp)]
        refine yields_pure.mpr ⟨hc, ?_, fr, ?_, fun _ => ?_, fun _ => hf', ?_⟩
        · intro c C hC
          rcases eq_or_ne c b with rfl | hne
          · rw [hB'] at hC
            cases hC
            rw [update_self]
            rfl
          · rw [fr.buffer hne] at hC
            rw [update_of_ne hne, hi.totals c C hC,
              List.map_congr_left (fun p hp => ((fr.same hne hp).len).symm)]
        · rw [update_self]
          rfl
        · rw [update_self]
          intro p hp
          simp at hp
        · rw [Heap.revOf_eq hB, Heap.revOf_eq hB']
    | cons p l =>
        have hpb : p ≠ b := by
          rintro rfl
          exact hc.links.notMem_self hb (by simp)
        have hR : update R b (p :: l) b = [] ++ p :: l := update_self _ _ _
        rw [if_neg (by simpa using hpb)]
        refine Yields.step (hnext h' _ p l hc fr.kind hR) ?_
        refine Yields.bind (unlinkPage_spec hc hf' hb hR) ?_
        rintro _ h₃ ⟨hc₃, c₃⟩
        rw [update_idem, List.nil_append] at hc₃
        refine yields_pure.mpr ⟨l.length, by simp, l, rfl, rfl, hc₃, c₃.fits hc hf',
          c₃.quiet.buffers.trans hbuf, ?_⟩
        refine fr.trans ⟨c₃.quiet.world, c₃.kind, fun hne => ?_,
          fun _ => by rw [c₃.quiet.buffers], fun {c q} hne hq => c₃.quiet.same ?_, ?_⟩
        · rw [update_of_ne hne, update_of_ne hne]
        · rintro rfl
          exact hne (hc.links.disj hq (by simp))
        · rw [Heap.revOf, Heap.revOf, c₃.quiet.buffers]
  · exact ⟨R b, rfl, rfl, by rwa [update_eq_self], hf₂, rfl, by rwa [update_eq_self]⟩
  · exact Nat.lt_succ_of_le (hc₂.links.length_le (by rw [hB₂]; rfl))

section Operations

variable (hi : Inv h R) (hf : h.Fits)

include hi hf

/-- `pb_trivial_buffer_clear`. -/
theorem trivialBufferClear_spec (htriv : h.IsTrivial b) :
    Yields (trivialBufferClear env b) h (fun _ h' => Became b h h' R (update R b []) 1 []) := by
  obtain ⟨B, hB, hop⟩ := htriv
  unfold trivialBufferClear
  refine trivialBufferClearImpl_spec hi hf hB (fun h' R' hc hk => ?_)
    (fun h' R' p l hc hk hR => ?_)
  · exact bufferGetIterator_run (Heap.IsTrivial.congr ⟨B, hB, hop⟩ hk) hc.links
  · exact bufferNextIterator_run (Heap.IsTrivial.congr ⟨B, hB, hop⟩ hk) hc.links
      (show R' b = [] ++ p :: l from hR)

/-- `pb_trivial_pure_buffer_clear`. -/
theorem trivialPureBufferClear_spec (hB : h.buffers b = some B) :
    Yields (trivialPureBufferClear b) h (fun _ h' => Became b h h' R (update R b []) 1 []) := by
  unfold trivialPureBufferClear
  refine trivialBufferClearImpl_spec hi hf hB (fun h' R' hc hk => ?_)
    (fun h' R' p l hc hk hR => ?_)
  · exact getIterator_run hc.links (by rw [Heap.buffers_isSome_congr hk, hB]; rfl)
  · exact nextIterator_run hc.links (by rw [Heap.buffers_isSome_congr hk, hB]; rfl)
      (show R' b = [] ++ p :: l from hR)

end Operations

end Pb
