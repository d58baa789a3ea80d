import PageBuf.Invariant.Insert

/-!
# InsertPages — the loops that insert pages made from a length

`write_data`, `insert_data`, their `_ref` forms, `extend`, `reserve` and
`rewind`: one round makes a page and inserts it, and the loop lemma follows
from the round by induction on the length to go.
-/

namespace Pb

open StateRun Function Ring RefCount

variable {env : Env} {h h' h₀ : Heap} {R R' : Nat → List Nat} {F X k₁ k₂ l₁ l₂ : List Nat}
  {b it x : Nat} {B : Buffer}

/-- The buffer has the pages it had, with the same bytes. -/
structure Kept (b : Nat) (h h' : Heap) (R : Nat → List Nat) (F X : List Nat) : Prop where
  core : Core h' R F X
  totals : Totals h' R
  frame : Frame b h h' R R
  same : ∀ p ∈ R b, Same h h' p

theorem Kept.stable (k : Kept b h h' R F X) : Stable b h h' R R :=
  fun _ => ⟨List.prefix_refl _, k.same, id⟩

theorem Totals.quiet {P : Nat → Prop} (ht : Totals h R) (q : Quiet P h h')
    (hP : ∀ {c p}, p ∈ R c → P p) : Totals h' R := by
  intro c C hC
  rw [q.buffers] at hC
  rw [ht c C hC, List.map_congr_left (fun p hp => ((q.same (hP hp)).len).symm)]

theorem Kept.of_quiet {P : Nat → Prop} (hc : Core h' R F X) (ht : Totals h R) (q : Quiet P h h')
    (hP : ∀ {c p}, p ∈ R c → P p) : Kept b h h' R F X :=
  ⟨hc, ht.quiet q hP, q.frame hP b, fun _ hp => q.same (hP hp)⟩

theorem Kept.trans {h'' : Heap} {F' X' : List Nat} (k : Kept b h h' R F X)
    (k' : Kept b h' h'' R F' X') : Kept b h h'' R F' X' :=
  ⟨k'.core, k'.totals, k.frame.trans k'.frame, fun p hp => (k.same p hp).trans (k'.same p hp)⟩

theorem NotMade.kept (n : NotMade env h h' R F X) (ht : Totals h R) : Kept b h h' R F X :=
  Kept.of_quiet (P := fun _ => True) n.core ht (n.quiet _) (fun _ => trivial)

theorem Made.notMem {v : DataVec} (m : Made h h' R F X x v) (hl : Links h R F) {c p : Nat}
    (hp : p ∈ R c) : p ≠ x := by
  rintro rfl
  have := (hl.live p).mpr (.inr (.inl ⟨c, hp⟩))
  simp [m.fresh] at this

/-- The increment of the revision and a refused request. -/
theorem Kept.bump_refused (hc : Core h R F X) (ht : Totals h R) (hB : h.buffers b = some B)
    (k : Nat) : Kept b h (h.bump b B k).refused R F X := by
  have i : Idle h (h.bump b B k).refused :=
    (Idle.bump hB k).trans (Idle.refused _)
  exact ⟨hc.idle i, ht.bump hB k, (Frame.bump hB k).trans
    ((Quiet.refused (fun _ => True) _).frame (fun _ => trivial) b),
    fun p _ => (Same.setBuffer _ p).trans ((Idle.refused _).same rfl p)⟩

/-- A page that could not be inserted is destroyed, and with it its data. -/
theorem pageDestroy_sole (hc : Core h R (x :: F) X) (ht : Totals h R) (hs : Sole h X x) :
    Yields (pageDestroy x) h (fun _ h' => Kept b h h' R F X ∧ h'.buffers = h.buffers) := by
  obtain ⟨d, hd, hrun⟩ := pageDestroy_spec hc
  refine hrun.mono ?_
  rintro _ h' ⟨h₁, -, -, hpost⟩
  obtain ⟨d', s, hd', hs', hop, -⟩ := hs.inData
  rw [hd] at hd'
  cases hd'
  have hone := hs.one hd
  obtain ⟨hc', q⟩ := hpost (by omega) (fun _ => Heap.canRelease_of_trivial hs' hop)
  exact ⟨Kept.of_quiet hc' ht q (fun hp => fun he => (hc.links.apart (by simp)).2 _ (he ▸ hp)),
    q.buffers⟩

/-- What a page maker of a length has to do. -/
def MakesPage (env : Env) (h : Heap) (R : Nat → List Nat) (F X : List Nat)
    (make : PbM (Option Nat)) (n : Nat) (Q : List UInt8 → Prop) : Prop :=
  Yields make h (fun r h' => match r with
    | none => NotMade env h h' R F X
    | some x => ∃ v, Made h h' R F X x v ∧ Sole h' X x ∧ v.len = n ∧ Q (h'.pageBytes x))

theorem cutLen_pos (pageSize : Nat) {len : Nat} (hl : len ≠ 0) : 0 < cutLen pageSize len := by
  unfold cutLen
  split <;> omega

theorem cutLen_le (pageSize len : Nat) : cutLen pageSize len ≤ len := by
  unfold cutLen
  split <;> omega

/-- **One round**: a page of the next cut is in its place, or a request was
refused and the buffer is as it was. -/
theorem insertPagesRound_spec {place : PbM Nat} {make : Nat → Nat → PbM (Option Nat)}
    {s : InsertLoop} {Q : List UInt8 → Prop} (hc : Core h R F X) (ht : Totals h R)
    (hB : h.buffers b = some B) (hop : B.operations = .trivial)
    (hplace : place h = .ok (it, h)) (hR : R b = k₁ ++ k₂) (hit : it = k₂.headD b)
    (hlen : s.len ≠ 0)
    (hmake : MakesPage env h R F X (make s.inserted (cutLen B.strategy.pageSize s.len))
      (cutLen B.strategy.pageSize s.len) Q) :
    Yields (insertPagesRound env b place make s) h (fun r h' =>
      (r = .inr s.inserted ∧ Refused env ∧ Kept b h h' R F X ∧
        (it = b → h'.revOf b = h.revOf b)) ∨
      (r = .inl ⟨0, s.len - cutLen B.strategy.pageSize s.len,
          s.inserted + cutLen B.strategy.pageSize s.len⟩ ∧
        ∃ x bs l₁ l₂, Q bs ∧ bs.length = cutLen B.strategy.pageSize s.len ∧
          Inserted h h' R F X b it (min s.offset (h.lenOf it)) x (bumpOf B b it) bs
            k₁ k₂ l₁ l₂)) := by
  have hb : (h.buffers b).isSome := by rw [hB]; rfl
  unfold insertPagesRound
  rw [if_neg hlen]
  refine Yields.step (getBuffer_run hB) (Yields.step hplace (Yields.bind hmake ?_))
  rintro (- | x) h₁ hpost
  · refine yields_pure.mpr (.inl ⟨rfl, hpost.refused, hpost.kept ht, fun _ => ?_⟩)
    rw [Heap.revOf, Heap.revOf, (hpost.quiet (fun _ => True)).buffers]
  · obtain ⟨v, m, hs, hv, hQ⟩ := hpost
    have hout : ∀ {c p}, p ∈ R c → p ≠ x := fun hp => m.notMem hc.links hp
    have hB₁ : h₁.buffers b = some B := by rw [m.quiet.buffers, hB]
    have ht₁ := ht.quiet m.quiet hout
    have hit' : h₁.lenOf it = h.lenOf it := by
      refine (m.quiet.same ?_).len
      rintro rfl
      have : it ∈ b :: R b := by
        rw [hR, hit]
        exact List.cons_subset_cons b (List.subset_append_right k₁ k₂) (headD_mem b k₂)
      have := hc.links.node_live hb this
      simp [m.fresh] at this
    refine Yields.bind (trivialBufferInsert_spec m.core ht₁ hB₁ hop hR hit
      (fun _ => hs.inData)) ?_
    rintro n h₂ (⟨rfl, hr, rfl, hne, -⟩ | ⟨rfl, l₁, l₂, i⟩)
    · rw [if_pos rfl]
      have hk₁ := Kept.bump_refused (b := b) m.core ht₁ hB₁ 1
      have hs₂ : Sole (h₁.bump b B 1).refused X x :=
        hs.idle m.core ((Idle.bump hB₁ 1).trans (Idle.refused _))
      refine Yields.bind (pageDestroy_sole (b := b) hk₁.core hk₁.totals hs₂) ?_
      rintro _ h₃ ⟨hk, -⟩
      refine yields_pure.mpr (.inl ⟨rfl, hr, ?_, fun he => absurd he hne⟩)
      refine ⟨hk.core, hk.totals, (m.quiet.frame hout b).trans (hk₁.frame.trans hk.frame), ?_⟩
      exact fun p hp => (m.quiet.same (hout hp)).trans ((hk₁.same p hp).trans (hk.same p hp))
    · have hxlen : h₁.lenOf x = cutLen B.strategy.pageSize s.len := m.len.trans hv
      rw [hxlen, if_neg (by have := cutLen_pos B.strategy.pageSize hlen; omega)]
      refine yields_pure.mpr (.inr ⟨rfl, x, _, l₁, l₂, hQ, ?_, ?_⟩)
      · rw [Heap.length_pageBytes, hxlen]
      · rw [hit'] at i
        exact i.of_made m hc.links hb hR hit

/-! ## The loops -/

/-- The content of `b` has become `pre ++ out ++ post`. `Inside` is what keeps
empty pages out. `AtEnd` is what leaves the revision as it is, but for the
first bytes of an empty buffer. -/
structure Grown (b : Nat) (h h' : Heap) (R R' : Nat → List Nat) (F X : List Nat)
    (pre out post : List UInt8) (Inside AtEnd : Prop) : Prop where
  core : Core h' R' F X
  totals : Totals h' R'
  frame : Frame b h h' R R'
  stable : Stable b h h' R R'
  content : h'.flat (R' b) = pre ++ out ++ post
  full : h.Full (R b) → Inside → h'.Full (R' b)
  revision : AtEnd → h'.revOf b = h.revOf b +
    if h.flat (R b) = [] ∧ h'.flat (R' b) ≠ [] then 1 else 0

/-- What a loop needs of its page maker: from every state it can meet, the
next `n` bytes after the first `i` extend what `P` says of them. -/
def Makes (env : Env) (h₀ : Heap) (F X : List Nat) (b : Nat)
    (make : Nat → Nat → PbM (Option Nat)) (len : Nat) (P : Nat → List UInt8 → Prop) : Prop :=
  ∀ h R i n out, Core h R F X → World h₀ h → h.IsTrivial b → i + n ≤ len → P i out →
    MakesPage env h R F X (make i n) n (fun bs => P (i + n) (out ++ bs))

theorem Full.cons_append {h : Heap} {x : Nat} {l₁ l₂ : List Nat} (hf : h.Full (l₁ ++ l₂))
    (hx : 0 < h.lenOf x) : h.Full (l₁ ++ x :: l₂) := by
  intro p hp
  simp only [List.mem_append, List.mem_cons] at hp
  rcases hp with hp | rfl | hp
  · exact hf p (by simp [hp])
  · exact hx
  · exact hf p (by simp [hp])

/-- No page is empty, so there are no more pages than bytes. -/
theorem Heap.Full.length_le {l : List Nat} (hf : h.Full l) : l.length ≤ (h.flat l).length := by
  induction l with
  | nil => exact Nat.le_refl _
  | cons p l ih =>
      have hpos := hf p List.mem_cons_self
      have hle := ih fun q hq => hf q (List.mem_cons_of_mem p hq)
      rw [Heap.flat_cons, List.length_append, Heap.length_pageBytes, List.length_cons]
      omega

theorem Totals.size (ht : Totals h R) (hB : h.buffers b = some B) :
    B.dataSize = (h.flat (R b)).length := by
  rw [ht b B hB, Heap.length_flat]

/-- Only appending to a buffer that has bytes leaves the revision alone. -/
theorem bumpOf_pos (ht : Totals h R) (hB : h.buffers b = some B)
    (hmoves : it ≠ b ∨ R b = []) : 0 < bumpOf B b it := by
  rw [bumpOf, if_neg]
  · exact Nat.one_pos
  · intro hc
    have hnil := hmoves.resolve_left (not_not.mpr hc.1)
    have hsize := ht.size hB
    rw [hnil, Heap.flat_nil, List.length_nil] at hsize
    exact hc.2 hsize

/-- Everything a loop knows survives one more page. -/
theorem Grown.insert {h'' : Heap} {pre out post pre' out' post' bs : List UInt8}
    {Inside AtEnd : Prop} {offset : Nat} (g : Grown b h h' R R' F X pre out post Inside AtEnd)
    (i : Inserted h' h'' R' F X b it offset x (bumpOf B b it) bs k₁ k₂ l₁ l₂)
    (hB : h'.buffers b = some B) (hR' : R' b = k₁ ++ k₂) (hbs : bs ≠ [])
    (hfront : h'.flat k₁ ++ (h'.flat k₂).take offset ++ bs ++ (h'.flat k₂).drop offset
      = pre' ++ out' ++ post')
    (hin : h.Full (R b) → Inside → it ≠ b → offset < h'.lenOf it)
    (hend : AtEnd → it = b) (hmono : h.flat (R b) ≠ [] → h'.flat (R' b) ≠ []) :
    Grown b h h'' R (update R' b (l₁ ++ x :: l₂)) F X pre' out' post' Inside AtEnd where
  core := i.core
  totals := i.totals
  frame := g.frame.trans i.frame
  stable := Stable.trans g.frame i.frame g.stable (i.stable (bumpOf_pos g.totals hB))
  content := by
    rw [update_self, Heap.flat_append, Heap.flat_cons, i.bytes, i.front, i.back, ← hfront]
    simp only [List.append_assoc]
  full := fun hf hI => by
    rw [update_self]
    refine Full.cons_append (i.full (hR' ▸ g.full hf hI) (hin hf hI)) ?_
    rw [← Heap.length_pageBytes, i.bytes]
    exact List.length_pos_of_ne_nil hbs
  revision := fun he => by
    have hsize := g.totals.size hB
    have hfilled : h''.flat (update R' b (l₁ ++ x :: l₂) b) ≠ [] := by
      rw [update_self, Heap.flat_append, Heap.flat_cons, i.bytes]
      simp [hbs]
    rw [i.revision, g.revision he, bumpOf]
    by_cases hempty : h'.flat (R' b) = []
    · have hfirst : h.flat (R b) = [] := by
        by_contra hne
        exact hmono hne hempty
      rw [hempty, List.length_nil] at hsize
      rw [if_neg (fun hc => hc.2 hempty), if_neg (fun hc => hc.2 hsize),
        if_pos ⟨hfirst, hfilled⟩]
    · have hpos := List.length_pos_of_ne_nil hempty
      rw [if_pos (show it = b ∧ B.dataSize ≠ 0 from ⟨hend he, by omega⟩), Nat.add_zero]
      by_cases hfirst : h.flat (R b) = []
      · rw [if_pos ⟨hfirst, hempty⟩, if_pos ⟨hfirst, hfilled⟩]
      · rw [if_neg (fun hc => hfirst hc.1), if_neg (fun hc => hfirst hc.1)]

theorem insertPages_place {place : PbM Nat} {make : Nat → Nat → PbM (Option Nat)}
    {P : Nat → List UInt8 → Prop} {offset len : Nat} (hc : Core h R F X) (ht : Totals h R)
    (htriv : h.IsTrivial b) (hR : R b = k₁ ++ k₂) (hit : it = k₂.headD b)
    (hplace : ∀ h', place h' = .ok (it, h')) (hmake : Makes env h F X b make len P)
    (hP : P 0 []) :
    Yields (insertPages env b place make offset len) h (fun k h' =>
      k ≤ len ∧ (k ≠ len → Refused env) ∧ ∃ R' out, P k out ∧
        Grown b h h' R R' F X (h.flat k₁ ++ (h.flat k₂).take (min offset (h.lenOf it))) out
          ((h.flat k₂).drop (min offset (h.lenOf it)))
          (it ≠ b → offset < h.lenOf it) (it = b)) := by
  unfold insertPages
  refine Yields.loop
    (I := fun n s h' => n = s.len ∧ s.inserted + s.len = len ∧
      ∃ R' l₁ l₂ out, P s.inserted out ∧ R' b = l₁ ++ l₂ ∧ it = l₂.headD b ∧
        h'.flat l₁ ++ (h'.flat l₂).take (min s.offset (h'.lenOf it))
          = h.flat k₁ ++ (h.flat k₂).take (min offset (h.lenOf it)) ++ out ∧
        (h'.flat l₂).drop (min s.offset (h'.lenOf it))
          = (h.flat k₂).drop (min offset (h.lenOf it)) ∧
        (h.Full (R b) → (it ≠ b → offset < h.lenOf it) →
          it ≠ b → s.offset < h'.lenOf it) ∧
        Grown b h h' R R' F X (h.flat k₁ ++ (h.flat k₂).take (min offset (h.lenOf it))) out
          ((h.flat k₂).drop (min offset (h.lenOf it)))
          (it ≠ b → offset < h.lenOf it) (it = b)) ?_ _ len _ _ ?_ (Nat.lt_succ_self _)
  · rintro n s h' ⟨rfl, hsum, R', l₁, l₂, out, hPo, hR', hit', hfront, hback, hoff, g⟩
    have htriv' := htriv.congr g.frame.kind
    obtain ⟨B, hB, hop⟩ := htriv'
    by_cases hz : s.len = 0
    · unfold insertPagesRound
      rw [if_pos hz]
      exact yields_pure.mpr ⟨by omega, fun hne => absurd (by omega) hne, R', out, hPo, g⟩
    · have hle := cutLen_le B.strategy.pageSize s.len
      have hpos := cutLen_pos B.strategy.pageSize hz
      refine (insertPagesRound_spec g.core g.totals hB hop (hplace h') hR' hit' hz
        (hmake h' R' s.inserted _ out g.core g.frame.world (htriv.congr g.frame.kind)
          (by omega) hPo)).mono ?_
      rintro r h'' (⟨rfl, hr, k, hrev⟩ | ⟨rfl, x, bs, m₁, m₂, hPbs, hlen, i⟩)
      · refine ⟨by omega, fun _ => hr, R', out, hPo, ⟨k.core, k.totals, g.frame.trans k.frame,
          Stable.trans g.frame k.frame g.stable k.stable, ?_, ?_, ?_⟩⟩
        · rw [flat_of_same k.same, g.content]
        · intro hf hin p hp
          rw [(k.same p hp).len]
          exact g.full hf hin p hp
        · intro he
          rw [hrev he, g.revision he, flat_of_same k.same]
      · have hbs : bs ≠ [] := List.ne_nil_of_length_pos (by omega)
        refine ⟨s.len - _, by omega, rfl, by dsimp only; omega, update R' b (m₁ ++ x :: m₂), m₁ ++ [x], m₂,
          out ++ bs, hPbs, by rw [update_self]; simp, i.place, ?_, ?_, ?_, ?_⟩
        · simp only [Nat.zero_min, List.take_zero, List.append_nil, Heap.flat_append,
            Heap.flat_cons, Heap.flat_nil, i.bytes, i.front, ← List.append_assoc]
          rw [hfront]
        · simp only [Nat.zero_min, List.drop_zero]
          rw [i.back, hback]
        · intro hf hin hne
          have hfull := i.full (hR' ▸ g.full hf hin)
            (fun hne => Nat.lt_of_le_of_lt (Nat.min_le_left _ _) (hoff hf hin hne))
          refine hfull it ?_
          cases m₂ with
          | nil => exact absurd i.place hne
          | cons p m₂ => simp [i.place]
        · refine g.insert i hB hR' hbs ?_ ?_ id ?_
          · rw [hfront, hback]
            simp only [List.append_assoc]
          · exact fun hf hin hne => Nat.lt_of_le_of_lt (Nat.min_le_left _ _) (hoff hf hin hne)
          · intro hne
            rw [g.content]
            refine List.ne_nil_of_length_pos ?_
            have := List.length_pos_of_ne_nil hne
            rw [hR, Heap.flat_append, ← List.take_append_drop (min offset (h.lenOf it))
              (h.flat k₂)] at this
            simp only [List.length_append] at this ⊢
            omega
  · refine ⟨rfl, by simp, R, k₁, k₂, [], hP, hR, hit, by simp, rfl, fun _ h => h, ?_⟩
    refine ⟨hc, ht, Frame.refl b h R, Stable.refl b h R, ?_, fun hf _ => hf, fun _ => by simp⟩
    rw [hR]
    simp

/-- The loop of `rewind` inserts at the head, wherever that is by then. -/
theorem insertPages_head {make : Nat → Nat → PbM (Option Nat)} {len : Nat}
    (hc : Core h R F X) (ht : Totals h R) (htriv : h.IsTrivial b)
    (hmake : Makes env h F X b make len (fun n out => out.length = n)) :
    Yields (insertPages env b (bufferGetIterator env b) make 0 len) h (fun k h' =>
      k ≤ len ∧ (k ≠ len → Refused env) ∧ ∃ R' out, out.length = k ∧
        Grown b h h' R R' F X [] out (h.flat (R b)) True False) := by
  unfold insertPages
  refine Yields.loop
    (I := fun n s h' => n = s.len ∧ s.inserted + s.len = len ∧ s.offset = 0 ∧
      ∃ R' out, out.length = s.inserted ∧
        Grown b h h' R R' F X [] out (h.flat (R b)) True False)
    ?_ _ len _ _ ?_ (Nat.lt_succ_self _)
  · rintro n s h' ⟨rfl, hsum, hoff, R', out, hout, g⟩
    have htriv' := htriv.congr g.frame.kind
    obtain ⟨B, hB, hop⟩ := htriv'
    by_cases hz : s.len = 0
    · unfold insertPagesRound
      rw [if_pos hz]
      exact yields_pure.mpr ⟨by omega, fun hne => absurd (by omega) hne, R', out, hout, g⟩
    · have hle := cutLen_le B.strategy.pageSize s.len
      have hpos := cutLen_pos B.strategy.pageSize hz
      have hplace : bufferGetIterator env b h' = .ok ((R' b).headD b, h') :=
        bufferGetIterator_run (htriv.congr g.frame.kind) g.core.links
      refine (insertPagesRound_spec g.core g.totals hB hop hplace
        (show R' b = [] ++ R' b from rfl) rfl hz
        (hmake h' R' s.inserted _ out g.core g.frame.world (htriv.congr g.frame.kind)
          (by omega) hout)).mono ?_
      rintro r h'' (⟨rfl, hr, k, -⟩ | ⟨rfl, x, bs, m₁, m₂, hPbs, hlen, i⟩)
      · refine ⟨by omega, fun _ => hr, R', out, hout, ⟨k.core, k.totals, g.frame.trans k.frame,
          Stable.trans g.frame k.frame g.stable k.stable, ?_, ?_, False.elim⟩⟩
        · rw [flat_of_same k.same, g.content]
        · intro hf hin p hp
          rw [(k.same p hp).len]
          exact g.full hf hin p hp
      · have hbs : bs ≠ [] := List.ne_nil_of_length_pos (by omega)
        rw [hoff, Nat.zero_min] at i
        refine ⟨s.len - _, by omega, rfl, by dsimp only; omega, rfl,
          update R' b (m₁ ++ x :: m₂), bs ++ out, by simp; omega, ?_⟩
        refine g.insert i hB rfl hbs ?_ ?_ False.elim ?_
        · have hcontent := g.content
          simp only [List.nil_append] at hcontent
          simp [hcontent]
        · intro hf hin hne
          refine g.full hf hin _ ?_
          cases hRb : R' b with
          | nil => exact absurd (by rw [hRb]; rfl) hne
          | cons p l => simp
        · intro hne
          rw [g.content]
          simp [hne]
  · refine ⟨rfl, by simp, rfl, R, [], rfl, ?_⟩
    exact ⟨hc, ht, Frame.refl b h R, Stable.refl b h R, rfl, fun hf _ => hf, False.elim⟩

/-! ## The page makers -/

theorem makes_data (buf : List UInt8) :
    Makes env h F X b (makeDataPage env b buf) buf.length (fun n out => out = buf.take n) := by
  rintro h' R i n _ hc - htriv hle rfl
  refine (makeDataPage_spec hc htriv hle).mono ?_
  rintro (- | x) h'' hpost
  · exact hpost
  · obtain ⟨v, m, hs, hv, hbytes⟩ := hpost
    exact ⟨v, m, hs, hv, by dsimp only; rw [hbytes, List.take_add]⟩

theorem makes_ref {buf : Ptr} {c : Nat} (hbuf : buf.region = .caller c) (len : Nat) :
    Makes env h F X b
      (fun inserted insertLen => trivialBufferPageCreateRef env (buf.add inserted) insertLen)
      len (fun n out => out = (h.bytes buf len).take n) := by
  rintro h' R i n _ hc w htriv hle rfl
  refine (trivialBufferPageCreateRef_spec hc (show (buf.add i).region = .caller c from hbuf) n).mono ?_
  rintro (- | x) h'' hpost
  · exact hpost
  · obtain ⟨m, hs⟩ := hpost
    refine ⟨_, m, hs, rfl, ?_⟩
    have hmem : h''.bytes (buf.add i) n = h.bytes (buf.add i) n := by
      refine Heap.bytes_congr (fun k => ?_)
      simp only [Ptr.add_region, hbuf, Heap.byteAt]
      rw [m.quiet.world.caller, w.caller]
    dsimp only
    rw [m.bytes, hmem, List.take_add, Heap.bytes_drop _ (by omega),
      Heap.bytes_take _ (show n ≤ len - i by omega)]

theorem makes_new (len : Nat) :
    Makes env h F X b (fun _ insertLen => trivialBufferPageCreate env b insertLen) len
      (fun n out => out.length = n) := by
  intro h' R i n out hc _ htriv _ hout
  refine (trivialBufferPageCreate_spec hc htriv n).mono ?_
  rintro (- | x) h'' hpost
  · exact hpost
  · obtain ⟨k, m, hs, -, -⟩ := hpost
    refine ⟨_, m, hs, rfl, ?_⟩
    dsimp only
    rw [List.length_append, Heap.length_pageBytes, m.len, hout]

/-! ## The operations -/

/-- What an operation that inserts up to `len` bytes at a position has done:
`k` bytes are there, all of them unless `Fails` explains why not. -/
def Inserts (b : Nat) (h : Heap) (R : Nat → List Nat) (len : Nat) (Fails : Prop)
    (P : Nat → List UInt8 → Prop) (pre post : List UInt8) (Inside AtEnd : Prop)
    (k : Nat) (h' : Heap) : Prop :=
  k ≤ len ∧ (k ≠ len → Fails) ∧ ∃ R' out, P k out ∧
    Grown b h h' R R' [] [] pre out post Inside AtEnd

/-- The bytes before a position of the buffer. -/
def Heap.before (h : Heap) (k₁ k₂ : List Nat) (it offset : Nat) : List UInt8 :=
  h.flat k₁ ++ (h.flat k₂).take (min offset (h.lenOf it))

/-- The bytes behind a position of the buffer. -/
def Heap.behind (h : Heap) (k₂ : List Nat) (it offset : Nat) : List UInt8 :=
  (h.flat k₂).drop (min offset (h.lenOf it))

theorem Grown.refl {pre post : List UInt8} {Inside AtEnd : Prop} (hi : Inv h R)
    (hcontent : h.flat (R b) = pre ++ post) :
    Grown b h h R R [] [] pre [] post Inside AtEnd :=
  ⟨hi.core, hi.totals, Frame.refl b h R, Stable.refl b h R, by simpa using hcontent,
    fun h _ => h, fun _ => by simp⟩

theorem Inserts.reject {len : Nat} {Fails Inside AtEnd : Prop}
    {P : Nat → List UInt8 → Prop} {pre post : List UInt8} (hi : Inv h R) (hf : Fails)
    (hP : P 0 []) (hcontent : h.flat (R b) = pre ++ post) :
    Inserts b h R len Fails P pre post Inside AtEnd 0 h :=
  ⟨Nat.zero_le _, fun _ => hf, R, [], hP, Grown.refl hi hcontent⟩

/-- Only an insertion at a page is rejected. -/
theorem insert_rejected {rejects : Bool} (hr : (!bufferIsEndIterator b it && rejects) = true) :
    it ≠ b ∧ rejects = true := by
  simpa [bufferIsEndIterator, trivialBufferIsEndIterator] using hr

section Operations

variable (hi : Inv h R) (hB : h.buffers b = some B) (hop : B.operations = .trivial)

include hi hB hop

theorem trivialBufferInsertData1_spec (hR : R b = k₁ ++ k₂) (hit : it = k₂.headD b)
    (offset : Nat) (buf : List UInt8) :
    Yields (trivialBufferInsertData1 env b it offset buf) h
      (Inserts b h R buf.length (Refused env) (fun n out => out = buf.take n)
        (h.before k₁ k₂ it offset) (h.behind k₂ it offset)
        (it ≠ b → offset < h.lenOf it) (it = b)) :=
  insertPages_place hi.core hi.totals ⟨B, hB, hop⟩ hR hit (fun _ => rfl) (makes_data buf) rfl

theorem trivialBufferInsertDataRef1_spec (hR : R b = k₁ ++ k₂) (hit : it = k₂.headD b)
    (offset : Nat) {buf : Ptr} {c : Nat} (hbuf : buf.region = .caller c) (len : Nat) :
    Yields (trivialBufferInsertDataRef1 env b it offset buf len) h
      (Inserts b h R len (Refused env) (fun n out => out = (h.bytes buf len).take n)
        (h.before k₁ k₂ it offset) (h.behind k₂ it offset)
        (it ≠ b → offset < h.lenOf it) (it = b)) :=
  insertPages_place hi.core hi.totals ⟨B, hB, hop⟩ hR hit (fun _ => rfl) (makes_ref hbuf len) rfl

/-- `pb_trivial_buffer_insert_data`. -/
theorem trivialBufferInsertData_spec (hR : R b = k₁ ++ k₂) (hit : it = k₂.headD b)
    (offset : Nat) (buf : List UInt8) :
    Yields (trivialBufferInsertData env b it offset buf) h
      (Inserts b h R buf.length (Refused env ∨ it ≠ b ∧ B.strategy.rejectsInsert = true)
        (fun n out => out = buf.take n) (h.before k₁ k₂ it offset) (h.behind k₂ it offset)
        (it ≠ b → offset < h.lenOf it) (it = b)) := by
  unfold trivialBufferInsertData
  refine Yields.step (getBuffer_run hB) ?_
  split
  · next hrej =>
      have hrej' := insert_rejected hrej
      refine yields_pure.mpr (Inserts.reject hi (.inr hrej') rfl ?_)
      rw [Heap.before, Heap.behind, List.append_assoc, List.take_append_drop,
        ← Heap.flat_append, hR]
  · refine (trivialBufferInsertData1_spec hi hB hop hR hit offset buf).mono ?_
    exact fun _ _ hd => ⟨hd.1, fun hne => .inl (hd.2.1 hne), hd.2.2⟩

/-- `pb_trivial_buffer_insert_data_ref`. -/
theorem trivialBufferInsertDataRef_spec (hR : R b = k₁ ++ k₂) (hit : it = k₂.headD b)
    (offset : Nat) {buf : Ptr} {c : Nat} (hbuf : buf.region = .caller c) (len : Nat) :
    Yields (trivialBufferInsertDataRef env b it offset buf len) h
      (Inserts b h R len (Refused env ∨ it ≠ b ∧ B.strategy.rejectsInsert = true)
        (fun n out => out = (h.bytes buf len).take n)
        (h.before k₁ k₂ it offset) (h.behind k₂ it offset)
        (it ≠ b → offset < h.lenOf it) (it = b)) := by
  unfold trivialBufferInsertDataRef
  refine Yields.step (getBuffer_run hB) ?_
  split
  · next hrej =>
      have hrej' := insert_rejected hrej
      refine yields_pure.mpr (Inserts.reject hi (.inr hrej') rfl ?_)
      rw [Heap.before, Heap.behind, List.append_assoc, List.take_append_drop,
        ← Heap.flat_append, hR]
  · refine (trivialBufferInsertDataRef1_spec hi hB hop hR hit offset hbuf len).mono ?_
    exact fun _ _ hd => ⟨hd.1, fun hne => .inl (hd.2.1 hne), hd.2.2⟩

/-- Insertions at the end iterator. -/
def Appends (env : Env) (b : Nat) (h : Heap) (R : Nat → List Nat) (rejects : Bool) (len : Nat)
    (P : Nat → List UInt8 → Prop) : Nat → Heap → Prop :=
  Inserts b h R len (Refused env ∨ rejects) P (h.flat (R b)) [] True True

omit hi hB hop in
theorem appends_of_place {len : Nat} {P : Nat → List UInt8 → Prop} {m : PbM Nat}
    (rejects : Bool)
    (hm : Yields m h (Inserts b h R len (Refused env) P (h.before (R b) [] b 0)
      (h.behind [] b 0) (b ≠ b → 0 < h.lenOf b) (b = b))) :
    Yields m h (Appends env b h R rejects len P) := by
  refine hm.mono ?_
  rintro k h' ⟨hk, hf, R', out, hP, g⟩
  refine ⟨hk, fun hne => .inl (hf hne), R', out, hP, ⟨g.core, g.totals, g.frame, g.stable, ?_,
    fun hf _ => g.full hf (fun hne => absurd rfl hne), fun _ => g.revision rfl⟩⟩
  have := g.content
  simpa [Heap.before, Heap.behind] using this

/-- `pb_trivial_buffer_write_data`. -/
theorem trivialBufferWriteData_spec (buf : List UInt8) :
    Yields (trivialBufferWriteData env b buf) h
      (Appends env b h R B.strategy.rejectsWrite buf.length (fun n out => out = buf.take n)) := by
  unfold trivialBufferWriteData
  refine Yields.step (getBuffer_run hB) ?_
  split
  · next hrej => exact yields_pure.mpr (Inserts.reject hi (.inr hrej) rfl (by simp))
  · refine Yields.step (a := b) rfl ?_
    exact appends_of_place _
      (trivialBufferInsertData1_spec hi hB hop (show R b = R b ++ [] by simp) rfl 0 buf)

/-- `pb_trivial_buffer_write_data_ref`. -/
theorem trivialBufferWriteDataRef_spec {buf : Ptr} {c : Nat} (hbuf : buf.region = .caller c)
    (len : Nat) :
    Yields (trivialBufferWriteDataRef env b buf len) h
      (Appends env b h R B.strategy.rejectsWrite len
        (fun n out => out = (h.bytes buf len).take n)) := by
  unfold trivialBufferWriteDataRef
  refine Yields.step (getBuffer_run hB) ?_
  split
  · next hrej => exact yields_pure.mpr (Inserts.reject hi (.inr hrej) rfl (by simp))
  · refine Yields.step (a := b) rfl ?_
    exact appends_of_place _
      (trivialBufferInsertDataRef1_spec hi hB hop (show R b = R b ++ [] by simp) rfl 0 hbuf len)

/-- `pb_trivial_buffer_extend`. -/
theorem trivialBufferExtend_spec (len : Nat) :
    Yields (trivialBufferExtend env b len) h
      (Appends env b h R B.strategy.rejectsExtend len (fun n out => out.length = n)) := by
  unfold trivialBufferExtend
  refine Yields.step (getBuffer_run hB) ?_
  split
  · next hrej => exact yields_pure.mpr (Inserts.reject hi (.inr hrej) rfl (by simp))
  · refine appends_of_place _ ?_
    exact insertPages_place hi.core hi.totals ⟨B, hB, hop⟩
      (show R b = R b ++ [] by simp) rfl
      (fun _ => rfl) (makes_new len) rfl

theorem bufferGetDataSize_run : bufferGetDataSize env b h = .ok (B.dataSize, h) := by
  refine (bind_run (getBuffer_run hB)).trans ?_
  rw [hop]
  exact trivialBufferGetDataSize_run hi.core hi.totals hB

/-- `pb_trivial_buffer_reserve`. -/
theorem trivialBufferReserve_spec (size : Nat) :
    Yields (trivialBufferReserve env b size) h
      (Appends env b h R B.strategy.rejectsExtend (size - (h.flat (R b)).length)
        (fun n out => out.length = n)) := by
  unfold trivialBufferReserve
  refine Yields.step (getBuffer_run hB) ?_
  split
  · next hrej => exact yields_pure.mpr (Inserts.reject hi (.inr hrej) rfl (by simp))
  · refine Yields.step (bufferGetDataSize_run hi hB hop) ?_
    rw [← hi.totals.size hB]
    split
    · next hle =>
        have hz : size - B.dataSize = 0 := by omega
        exact yields_pure.mpr ⟨Nat.zero_le _, fun hne => absurd hz.symm hne, R, [], rfl,
          Grown.refl hi (by simp)⟩
    · exact trivialBufferExtend_spec hi hB hop _

/-- `pb_trivial_buffer_rewind`. -/
theorem trivialBufferRewind_spec (len : Nat) :
    Yields (trivialBufferRewind env b len) h
      (Inserts b h R len (Refused env ∨ B.strategy.rejectsRewind)
        (fun n out => out.length = n) [] (h.flat (R b)) True False) := by
  unfold trivialBufferRewind
  refine Yields.step (getBuffer_run hB) ?_
  split
  · next hrej => exact yields_pure.mpr (Inserts.reject hi (.inr hrej) rfl rfl)
  · refine (insertPages_head hi.core hi.totals ⟨B, hB, hop⟩ (makes_new len)).mono ?_
    exact fun _ _ hd => ⟨hd.1, fun hne => .inl (hd.2.1 hne), hd.2.2⟩

end Operations

end Pb
