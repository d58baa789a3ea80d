import PageBuf.Invariant.Adds
import PageBuf.Invariant.SharedReads
import PageBuf.Invariant.Transfer

/-!
# SharedTransfer — transfers out of a buffer that lends its pages

A trivial buffer takes bytes from the mmap buffer. Each round makes a page on
the data of a page of the window, or a copy of it, and goes on in the window,
which may map what comes next.
-/

namespace Pb

open StateRun Function Ring RefCount

variable {env : Env} {h h' h'' h₁ g g' : Heap} {R R' : Nat → List Nat} {F X k₁ k₂ l₁ l₂ : List Nat}
  {a b d e it head len n offset p t x : Nat} {B : Buffer} {fd : Fd} {k : Block}
  {ks ks' : List Block} {bs out : List UInt8} {v : DataVec}

/-! ## What an insertion refers to -/

/-- No page has got other data. -/
structure SameData (h h' : Heap) : Prop where
  next : h.next ≤ h'.next
  data : h'.dataOf = h.dataOf

theorem SameData.trans (s : SameData h h') (s' : SameData h' h'') : SameData h h'' :=
  ⟨Nat.le_trans s.next s'.next, s'.data.trans s.data⟩

instance : Bookkeeping SameData where
  refl _ := ⟨Nat.le_refl _, rfl⟩
  trans _ _ _ := SameData.trans
  rest hn hp _ _ _ := ⟨hn, Heap.dataOf_congr hp⟩
  buffer _ _ _ := ⟨Nat.le_refl _, rfl⟩
  allocator _ _ _ := ⟨Nat.le_refl _, rfl⟩
  closed := ⟨Nat.le_refl _, rfl⟩

theorem sameData_modifyPage {f : Page → Page} (hf : ∀ P, (f P).data = P.data) :
    Within SameData (modifyPage p f) := by
  intro h
  unfold modifyPage
  refine returns_getPage fun P hP => Returns.of_run (modify_run _) ⟨Nat.le_refl _, ?_⟩
  funext q
  by_cases he : q = p
  · subst he
    simp [Heap.dataOf, Heap.setPage, hP, hf]
  · simp only [Heap.dataOf, Heap.setPage, update_of_ne he]

/-- Linking a page and counting its bytes. -/
theorem sameData_link : Within SameData (do
    linkPage p it x
    let len ← pageGetLen x
    trivialBufferIncrementDataSize b len
    pure len) := by
  have hlink : Within SameData (linkPage p it x) := by
    refine .bind (sameData_modifyPage ?_) fun _ => .bind (sameData_modifyPage ?_) fun _ =>
      sameData_modifyPage ?_
    all_goals exact fun _ => rfl
  exact hlink.bind fun _ => within_pageGetLen.bind fun _ =>
    within_trivialBufferIncrementDataSize.bind fun _ => .pure

/-- An insertion refers to the data of the page that it splits once more, if it splits one. -/
structure SplitsData (h h' : Heap) (it offset : Nat) : Prop where
  next : h.next ≤ h'.next
  data : h'.dataOf = h.dataOf ∨ offset ≠ 0 ∧ ∃ y, y < h'.next ∧ h.dataOf y = none ∧
    h'.dataOf = update h.dataOf y (h.dataOf it)

theorem SplitsData.of_same (s : SameData h h') : SplitsData h h' it offset := ⟨s.next, .inl s.data⟩

/-- One more reference at most, and none where nothing is split. -/
theorem SplitsData.refs (s : SplitsData h h' it offset) (hl : Links h R F) (d : Nat) :
    h'.refs d ≤ h.refs d + if offset = 0 then 0 else 1 := by
  rcases s.data with hd | ⟨ho, y, hy, hnone, hd⟩
  · rw [Heap.refs_congr hd s.next hl.fresh]
    exact Nat.le_add_right _ _
  · have hrefs := Heap.refs_update hl hy s.next hd d
    rw [hnone, if_neg (by simp)] at hrefs
    rw [if_neg ho]
    split at hrefs <;> omega

theorem returns_insert_splitsData (hc : Core h R (x :: F) X) (ht : Totals h R)
    (hB : h.buffers b = some B) (hop : B.operations = .trivial) (hR : R b = k₁ ++ k₂)
    (hit : it = k₂.headD b) :
    Returns (trivialBufferInsert env b it offset x) h (fun _ h' => SplitsData h h' it offset) := by
  have hb : (h.buffers b).isSome := by rw [hB]; rfl
  have hbump : trivialBufferInsertBump env b it h = .ok ((), h.bump b B (bumpOf B b it)) :=
    trivialBufferInsertBump_run hc ht hB hop
  have hc₁ := hc.bump hB (bumpOf B b it)
  have hb₁ : ((h.bump b B (bumpOf B b it)).buffers b).isSome := by
    simp [Heap.bump]
  have hlen : (h.bump b B (bumpOf B b it)).lenOf it = h.lenOf it := rfl
  have hdata : (h.bump b B (bumpOf B b it)).dataOf = h.dataOf := rfl
  have hnext : (h.bump b B (bumpOf B b it)).next = h.next := rfl
  unfold trivialBufferInsert
  refine Returns.step hbump ?_
  generalize h.bump b B (bumpOf B b it) = g at *
  refine returns_pageGetLen fun _ => ?_
  by_cases hz : min offset (g.lenOf it) = 0
  · have hclamp : (if offset > g.lenOf it then g.lenOf it else offset) = 0 := by
      split <;> omega
    rw [hclamp]
    simp only [ne_eq, not_true_eq_false, if_false]
    refine returns_getPage fun N hN => ?_
    cases N.prev with
    | none => exact Returns.throw
    | some prevPage =>
        refine (sameData_link.returns g).mono fun _ h' s => .of_same ⟨?_, ?_⟩
        · rw [← hnext]
          exact s.next
        · rw [s.data, hdata]
  · have hclamp : (if offset > g.lenOf it then g.lenOf it else offset) = min offset (g.lenOf it) := by
      split <;> omega
    rw [hclamp]
    simp only [hz, ne_eq, not_false_eq_true, if_true]
    have hitb : it ≠ b := by
      intro he
      have hsent := (hc₁.views.sentinel hb₁).2
      rw [← he] at hsent
      omega
    obtain ⟨k, rfl⟩ : ∃ k, k₂ = it :: k := by
      cases k₂ with
      | nil => exact absurd hit hitb
      | cons p k =>
          simp only [List.headD_cons] at hit
          exact ⟨k, by rw [hit]⟩
    refine Returns.bind (trivialBufferSplit_spec hc₁ hb₁ hR (Nat.min_le_right _ _)).returns ?_
    intro r h₁ hpost
    cases r with
    | none =>
        obtain ⟨-, rfl⟩ := hpost
        exact Returns.pure (.of_same ⟨Nat.le_of_eq hnext.symm, hdata⟩)
    | some y =>
        have hy : y < h₁.next := hpost.core.links.fresh
          ((hpost.core.links.live y).mpr (.inr (.inl ⟨b, by simp⟩)))
        have hnone : h.dataOf y = none := by
          rw [← hdata, Heap.dataOf, hpost.fresh]
          rfl
        refine (sameData_link.returns h₁).mono fun _ h' s => ⟨?_, .inr ⟨by omega, y, ?_, hnone, ?_⟩⟩
        · have hle := hpost.quiet.world.next
          have hle' := s.next
          omega
        · exact Nat.lt_of_lt_of_le hy s.next
        · rw [s.data, hpost.dataOf, hdata]

/-! ## What a page maker refers to -/

/-- A page that a transfer makes refers to data of its own, or to that of its source page. -/
theorem transferAlgorithm_data (hB : h.buffers b = some B) (hop : B.operations = .trivial)
    (hc : Core h R [] []) (hp : (h.pages p).isSome) (hd : h.dataOf p = some d) (n off : Nat) :
    Yields ((transferAlgorithm env b B.strategy).make p n off) h (fun r h' => ∀ x, r = some x →
      Sole h' [] x ∨ h'.dataOf x = some d) := by
  have hshared : Yields (makeSharedPage env p n off) h (fun r h' => ∀ x, r = some x →
      Sole h' [] x ∨ h'.dataOf x = some d) := by
    refine (makeSharedPage_spec hc hd n off).mono fun r h' hpost x hx => ?_
    subst hx
    exact .inr hpost.2.2.1
  have hcopied : Yields (makeCopiedPage env b p n off) h (fun r h' => ∀ x, r = some x →
      Sole h' [] x ∨ h'.dataOf x = some d) := by
    refine (makeCopiedPage_spec hc ⟨B, hB, hop⟩ hp n off).mono fun r h' hpost x hx => ?_
    subst hx
    obtain ⟨v, -, hs, -⟩ := hpost
    exact .inl hs
  unfold transferAlgorithm
  split
  · exact hshared
  · exact hcopied
  · exact hshared
  · exact hcopied

/-- Data of a mapping of which the source page is no part has as many users as before. -/
theorem Made.refs_other (m : Made h h' R [] [] x v) (hl : Links h R [])
    (hx : Sole h' [] x ∨ h'.dataOf x = some d) {s : Shape} (hs : h'.shapeOf e = some s)
    (hmap : s.operations ≠ .trivial) (hne : e ≠ d) : h'.refs e = h.refs e := by
  have hdata : h'.dataOf = update h.dataOf x (h'.dataOf x) := by
    funext q
    by_cases hq : q = x
    · rw [hq, update_self]
    · rw [update_of_ne hq, (m.quiet.same hq).data]
  have hxlt : x < h'.next :=
    m.core.links.fresh ((m.core.links.live x).mpr (.inr (.inr List.mem_cons_self)))
  have hrefs := Heap.refs_update hl hxlt m.quiet.world.next hdata e
  have hnone : h.dataOf x = none := by
    rw [Heap.dataOf, m.fresh]
    rfl
  have hother : h'.dataOf x ≠ some e := by
    intro he
    rcases hx with hsole | hd
    · obtain ⟨e', s', he', hs', hop, -⟩ := hsole.inData
      rw [he] at he'
      cases he'
      rw [hs] at hs'
      cases hs'
      exact hmap hop
    · rw [hd] at he
      exact hne (Option.some.inj he).symm
  rw [hnone, if_neg (by simp), if_neg hother] at hrefs
  omega

/-! ## What changes beside the window -/

/-- The window stays where the pages of the buffer do. -/
theorem Lends.along (m : Lends h R b a fd head ks) (w : World h h') (hi : Inv h' R')
    (hring : R' b = R b) (hkind : h'.kindOf b = h.kindOf b) (hsame : ∀ p ∈ R b, Same h h' p)
    (hothers : ∀ {e}, e ≠ b → (h'.buffers e).isSome → h'.IsTrivial e)
    (hfull : ∀ e, h'.Full (R' e)) : Lends h' R' b a fd head ks where
  inv := hi
  opened := m.opened.along w hi.core hkind
  writable := m.writable
  others := hothers
  full := hfull
  ring := by rw [hring, m.ring]
  shows := fun k hk => by
    have hshow := m.shows k hk
    have hs := hsame k.page (m.page_mem hk)
    obtain ⟨s, hshape⟩ := hi.core.data_live (hs.data.trans hshow.data)
    have hlt := m.inv.core.objs.freshData (d := k.data) (by rw [hshow.shape]; rfl)
    exact hshow.along w hi.core hs (hshape.trans (w.data hshape hlt).symm)
  once := m.once
  stretch := by
    rw [w.files]
    exact m.stretch
  first := m.first
  last := m.last
  onFile := m.onFile.along w hi.core

/-- The blocks of other buffers have got few users. -/
theorem Heap.Ready.along {r : Nat} (hr : h.Ready a fd head ks (n + r)) (w : World h h')
    (hrefs : ∀ d s, h'.shapeOf d = some s → s.operations ≠ .trivial → d ∉ ks.map Block.data →
      h'.refs d ≤ h.refs d + r) : h'.Ready a fd head ks n := by
  intro d s off hs hop hd
  have hmap : s.operations ≠ .trivial := by simp [hop]
  obtain ⟨hfew, hrest⟩ := hr d s off (w.mapped hs hmap) hop hd
  have hle := hrefs d s hs hmap hd
  rw [w.files]
  exact ⟨by omega, hrest⟩

/-- The buffers besides `b` and `t` are as they were, and so are the files. -/
structure Between (h h' : Heap) (R R' : Nat → List Nat) (b t : Nat) : Prop where
  files : h'.files = h.files
  maps : MapsStay h h'
  ring : ∀ {c}, c ≠ b → c ≠ t → R' c = R c
  buffer : ∀ {c}, c ≠ b → c ≠ t → h'.buffers c = h.buffers c
  same : ∀ {c p}, c ≠ b → c ≠ t → p ∈ R c → Same h h' p

theorem Beside.between (s : Beside h h' R R' b) (t : Nat) : Between h h' R R' b t :=
  ⟨s.files, s.maps, fun hb _ => s.ring hb, fun hb _ => s.buffer hb, fun hb _ => s.same hb⟩

theorem Frame.between (f : Frame t h h' R R') (b : Nat) : Between h h' R R' b t :=
  ⟨f.world.files, f.world.mapsStay, fun _ ht => f.ring ht, fun _ ht => f.buffer ht,
    fun _ ht => f.same ht⟩

theorem Between.trans {R'' : Nat → List Nat} (s : Between h h' R R' b t)
    (s' : Between h' h'' R' R'' b t) : Between h h'' R R'' b t where
  files := s'.files.trans s.files
  maps := s.maps.trans s'.maps
  ring := fun hb ht => (s'.ring hb ht).trans (s.ring hb ht)
  buffer := fun hb ht => (s'.buffer hb ht).trans (s.buffer hb ht)
  same := fun {c p} hb ht hp =>
    (s.same hb ht hp).trans (s'.same hb ht (by rwa [s.ring hb ht]))

/-! ## The target -/

/-- The target of a transfer that began in `h` at the place of `it` and has come to `g`: the bytes
`out` have been put there, and the next ones go between `l₁` and `l₂`. -/
structure Receives (h g : Heap) (t it offset : Nat) (k₁ k₂ : List Nat) (off : Nat)
    (l₁ l₂ : List Nat) (out : List UInt8) : Prop where
  place : it = l₂.headD t
  front : g.before l₁ l₂ it off = h.before k₁ k₂ it offset ++ out
  back : g.behind l₂ it off = h.behind k₂ it offset
  inside : it ≠ t → off < g.lenOf it

namespace Receives

theorem init (hit : it = k₂.headD t) (hin : it ≠ t → offset < h.lenOf it) :
    Receives h h t it offset k₁ k₂ offset k₁ k₂ [] :=
  ⟨hit, (List.append_nil _).symm, rfl, hin⟩

theorem content {off : Nat} (r : Receives h g t it offset k₁ k₂ off l₁ l₂ out) :
    g.flat (l₁ ++ l₂) = h.before k₁ k₂ it offset ++ out ++ h.behind k₂ it offset := by
  rw [← Heap.before_behind g l₁ l₂ it off, r.front, r.back]

/-- The pages of the target have stayed. -/
theorem same {off : Nat} (r : Receives h g t it offset k₁ k₂ off l₁ l₂ out)
    (hs : ∀ p ∈ l₁ ++ l₂, Same g g' p) (hlen : g'.lenOf t = g.lenOf t) :
    Receives h g' t it offset k₁ k₂ off l₁ l₂ out := by
  have hit : g'.lenOf it = g.lenOf it := by
    rw [r.place]
    cases l₂ with
    | nil => exact hlen
    | cons p l => exact (hs p (by simp)).len
  have h₁ : g'.flat l₁ = g.flat l₁ := flat_of_same fun p hp => hs p (by simp [hp])
  have h₂ : g'.flat l₂ = g.flat l₂ := flat_of_same fun p hp => hs p (by simp [hp])
  refine ⟨r.place, ?_, ?_, ?_⟩
  · rw [← r.front, Heap.before, Heap.before, h₁, h₂, hit]
  · rw [← r.back, Heap.behind, Heap.behind, h₂, hit]
  · rw [hit]
    exact r.inside

/-- One more page has been put in. -/
theorem insert {off i : Nat} {n₁ n₂ : List Nat}
    (r : Receives h g t it offset k₁ k₂ off l₁ l₂ out)
    (ins : Inserted g g' R [] [] t it (min off (g.lenOf it)) x i bs l₁ l₂ n₁ n₂)
    (hfull : g'.Full (n₁ ++ n₂)) :
    Receives h g' t it offset k₁ k₂ 0 (n₁ ++ [x]) n₂ (out ++ bs) := by
  have hfront := r.front
  have hback := r.back
  rw [Heap.before] at hfront
  rw [Heap.behind] at hback
  refine ⟨ins.place, ?_, ?_, fun hne => ?_⟩
  · rw [Heap.before_zero, Heap.flat_append, Heap.flat_cons, Heap.flat_nil, List.append_nil,
      ins.bytes, ins.front, hfront, List.append_assoc]
  · rw [Heap.behind_zero, ins.back, hback]
  · have hplace := ins.place
    cases n₂ with
    | nil => exact absurd hplace hne
    | cons p l =>
        rw [List.headD_cons] at hplace
        rw [hplace]
        exact hfull p (by simp)

end Receives

/-! ## One page -/

/-- A part of a page has the bytes of the file. -/
theorem Heap.Shows.part {file off : Nat} (hk : h.Shows a file k)
    (hfit : k.Fits (h.files file).length) (hle : off + n ≤ k.stop - k.start) :
    ((h.pageBytes k.page).drop off).take n = ((h.files file).drop (k.start + off)).take n := by
  rw [hk.pageBytes hfit, List.drop_take, List.drop_take, List.take_take, List.drop_drop,
    Nat.min_eq_left (by omega)]

/-- Where a page of the target is put in, the window and the buffers besides are as they were. -/
structure PutPage (h g g' : Heap) (R R' : Nat → List Nat) (b a : Nat) (fd : Fd) (head : Nat)
    (ks : List Block) (t it offset : Nat) (k₁ k₂ l₁ l₂ : List Nat) (out : List UInt8) : Prop where
  lends : Lends g' R' b a fd head ks
  ready : g'.Ready a fd head ks 0
  between : Between g g' R R' b t
  kind : g'.kindOf t = g.kindOf t
  same : ∀ k ∈ ks, Same g g' k.page
  target : R' t = l₁ ++ l₂
  receives : Receives h g' t it offset k₁ k₂ 0 l₁ l₂ out

/-- **A page made from a page of the window** is put into the target. -/
theorem Lends.putPage {σ : Strategy} {off srcOff : Nat} (m : Lends g R b a fd head ks)
    (hs : env.Succeeds) (hr : g.Ready a fd head ks (if off = 0 then 0 else 1))
    (hkind : g.kindOf t = some (σ, .trivial)) (hne : t ≠ b) (hk : k ∈ ks) (hpos : 0 < n)
    (hle : srcOff + n ≤ k.stop - k.start) (hR : R t = l₁ ++ l₂)
    (r : Receives h g t it offset k₁ k₂ off l₁ l₂ out) :
    Yields ((transferAlgorithm env t σ).make k.page n srcOff) g (fun o g₁ => ∃ x, o = some x ∧
      Yields (trivialBufferInsert env t it off x) g₁ (fun len g₂ => len = n ∧ ∃ R₂ n₁ n₂,
        PutPage h g g₂ R R₂ b a fd head ks t it offset k₁ k₂ n₁ n₂
          (out ++ ((g.files fd.file).drop (k.start + srcOff)).take n))) := by
  have hc := m.inv.core
  obtain ⟨B, hB, hBk⟩ := Option.map_eq_some_iff.mp hkind
  obtain ⟨rfl, hop⟩ := Prod.mk.inj hBk
  have hb : (g.buffers t).isSome := by rw [hB]; rfl
  have hshow := m.shows k hk
  have hfit := m.stretch.fits k hk
  have hlive : (g.pages k.page).isSome := hc.links.node_live m.opened.isSome
    (List.mem_cons_of_mem b (m.page_mem hk))
  have hmake := (@transferAlgorithm_makes env _ _ _ hB hop) g R k.page n srcOff hc rfl hlive
    (by rw [hshow.data]; rfl)
  have hdata := @transferAlgorithm_data env _ _ _ _ _ _ hB hop hc hlive hshow.data n srcOff
  refine (hmake.and hdata).mono fun o g₁ hpost => ?_
  obtain ⟨hmade, hdata⟩ := hpost
  cases o with
  | none => exact absurd hmade.refused hs.not_refused
  | some x =>
      obtain ⟨v, md, -, hw, hv, hbytes⟩ := hmade
      have hout : ∀ {c p}, p ∈ R c → p ≠ x := fun hp => md.notMem hc.links hp
      have hB₁ : g₁.buffers t = some B := by rw [md.quiet.buffers, hB]
      have ht₁ := m.inv.totals.quiet md.quiet hout
      have hkind₁ : g₁.kindOf = g.kindOf := by
        funext c
        simp [Heap.kindOf, md.quiet.buffers]
      have hit' : g₁.lenOf it = g.lenOf it := by
        refine (md.quiet.same ?_).len
        rintro rfl
        have hmem : it ∈ t :: R t := by
          rw [hR, r.place]
          exact List.cons_subset_cons t (List.subset_append_right l₁ l₂) (headD_mem t l₂)
        have hlive := hc.links.node_live hb hmem
        simp [md.fresh] at hlive
      have hrefs : Returns (trivialBufferInsert env t it off x) g₁ (fun _ h' =>
          SplitsData g₁ h' it off) := returns_insert_splitsData md.core ht₁ hB₁ hop hR r.place
      have hinsert : Yields (trivialBufferInsert env t it off x) g₁ _ :=
        trivialBufferInsert_spec md.core ht₁ hB₁ hop hR r.place
          (fun hcw => hw (hcw.congr (congrFun hkind₁ t)))
      obtain ⟨len, g₂, hrun, hpost⟩ := hinsert
      refine ⟨x, rfl, Yields.intro hrun ?_⟩
      rcases hpost with ⟨-, hrefused, -⟩ | ⟨hlen, n₁, n₂, i⟩
      · exact absurd hrefused hs.not_refused
      · refine ⟨hlen.trans (md.len.trans hv), update R t (n₁ ++ x :: n₂), n₁ ++ [x], n₂, ?_⟩
        have hsplits := hrefs _ _ hrun
        have hw₂ := i.frame.world
        have hpage : ∀ k' ∈ ks, k'.page ∈ R b := fun k' hk' => m.page_mem hk'
        rw [hit'] at i
        have i' := i.of_made md hc.links hb hR r.place
        have hpart : g₁.pageBytes x = ((g.files fd.file).drop (k.start + srcOff)).take n := by
          rw [hbytes (by rw [hshow.lenOf]; exact hle)]
          exact hshow.part hfit hle
        have hnew : 0 < g₂.lenOf x := by
          rw [← Heap.length_pageBytes, i.bytes, Heap.length_pageBytes, md.len, hv]
          exact hpos
        have hfull : g₂.Full (n₁ ++ n₂) := by
          refine i'.full ?_ fun hnb => Nat.lt_of_le_of_lt (Nat.min_le_left _ _) (r.inside hnb)
          rw [← hR]
          exact m.full t
        have hring : ∀ {c}, c ≠ t → update R t (n₁ ++ x :: n₂) c = R c := fun hc' => i'.frame.ring hc'
        refine
          { lends := m.along i'.frame.world ⟨i'.core, i'.totals⟩ (hring hne.symm)
              (congrFun i'.frame.kind b) (fun p hp => i'.frame.same hne.symm hp) ?_ ?_
            ready := ?_
            between := i'.frame.between b
            kind := congrFun i'.frame.kind t
            same := fun k' hk' => i'.frame.same hne.symm (hpage k' hk')
            target := by rw [update_self, List.append_assoc, List.singleton_append]
            receives := r.insert (hpart ▸ i') hfull }
        · intro e he hsome
          rw [Heap.buffers_isSome_congr i'.frame.kind] at hsome
          exact (m.others he hsome).congr i'.frame.kind
        · intro e p hp
          by_cases het : e = t
          · rw [het, update_self] at hp
            exact Full.cons_append hfull hnew p hp
          · rw [hring het] at hp
            rw [(i'.frame.same het hp).len]
            exact m.full e p hp
        · refine Heap.Ready.along (r := if off = 0 then 0 else 1) (by simpa using hr)
            i'.frame.world fun e s hs₂ hmap hnot => ?_
          have hne' : e ≠ k.data := by
            rintro rfl
            exact hnot (List.mem_map_of_mem hk)
          have hmade := md.refs_other hc.links (hdata x rfl) (hw₂.mapped hs₂ hmap) hmap hne'
          rw [← hmade]
          exact hsplits.refs md.core.links e

/-! ## The loop -/

/-- The loop stands at the offset `x` of the file: `off` bytes behind the beginning of the page
`it`, or at the end. -/
def StandsAt (ks : List Block) (b size it off x : Nat) : Prop :=
  (∃ k ∈ ks, it = k.page ∧ k.start + off = x ∧ off < k.stop - k.start) ∨ it = b ∧ size = x

theorem standsAt_begins {size : Nat} (hp : BeginsAt ks b size it x) (hs : Stretch ks size) :
    StandsAt ks b size it 0 x := by
  rcases beginsAt_iff.mp hp with ⟨k, hk, rfl, rfl⟩ | ⟨rfl, rfl⟩
  · have hpos := (hs.fits k hk).start
    exact .inl ⟨k, hk, rfl, rfl, by omega⟩
  · exact .inr ⟨rfl, rfl⟩

/-- The loop of a transfer out of the window that began in `h` at the offset `start` of the file,
after some rounds. -/
structure Lending (Start : Nat → Prop) (b a : Nat) (fd : Fd) (head start : Nat) (h : Heap)
    (R : Nat → List Nat) (t it offset len : Nat) (k₁ k₂ : List Nat) (s : TransferLoop) (g : Heap)
    (R' : Nat → List Nat) (ks : List Block) (l₁ l₂ : List Nat) : Prop where
  lends : Lends g R' b a fd head ks
  ready : g.Ready a fd head ks (if s.offset = 0 then 0 else 1)
  between : Between h g R R' b t
  kind : g.kindOf t = h.kindOf t
  first : startOf ks head = start
  sum : s.inserted + s.len = len
  bound : start + s.inserted ≤ (h.files fd.file).length
  target : R' t = l₁ ++ l₂
  receives : Receives h g t it offset k₁ k₂ s.offset l₁ l₂
    (((h.files fd.file).drop start).take s.inserted)
  source : s.len ≠ 0 → Start s.srcOffset ∧
    StandsAt ks b (h.files fd.file).length s.srcIt s.srcOffset (start + s.inserted)

namespace Lending

variable {Start : Nat → Prop} {start srcIt off : Nat} {σ : Strategy} {s : TransferLoop}
  {n₁ n₂ : List Nat} {R₂ : Nat → List Nat}

/-- The loop after one more page, wherever it goes on in the window. -/
theorem step (l : Lending Start b a fd head start h R t it offset len k₁ k₂ s g R' ks l₁ l₂)
    (hkind : h.kindOf t = some (σ, .trivial)) (hne : t ≠ b) (hle : n ≤ s.len)
    (hbound : start + (s.inserted + n) ≤ (h.files fd.file).length)
    (put : PutPage h g g' R' R₂ b a fd head ks t it offset k₁ k₂ n₁ n₂
      (((h.files fd.file).drop start).take (s.inserted + n)))
    (hon : Onward g' h' R₂ b a fd head 0 ks') (hstart : startOf ks' head = startOf ks head)
    (hsource : s.len - n ≠ 0 → Start off ∧
      StandsAt ks' b (h.files fd.file).length srcIt off (start + (s.inserted + n))) :
    ∃ R'' l₁' l₂', Lending Start b a fd head start h R t it offset len k₁ k₂
      ⟨0, s.len - n, s.inserted + n, srcIt, off⟩ h' R'' ks' l₁' l₂' := by
  obtain ⟨R'', beside, lends, ready⟩ := hon
  have hkind' : h'.kindOf t = g'.kindOf t := by
    rw [Heap.kindOf, Heap.kindOf, beside.buffer hne]
  have hsent : ∀ {e : Heap} {R : Nat → List Nat}, Inv e R → e.kindOf t = some (σ, .trivial) →
      e.lenOf t = 0 := by
    intro e R hi hk
    refine (hi.core.views.sentinel ?_).2
    rw [← e.isSome_kindOf, hk]
    rfl
  have hkg : g'.kindOf t = some (σ, .trivial) := by rw [put.kind, l.kind, hkind]
  refine ⟨R'', n₁, n₂, lends, ready, (l.between.trans put.between).trans (beside.between t), ?_, ?_,
    ?_, hbound, ?_, ?_, hsource⟩
  · rw [hkind', put.kind, l.kind]
  · rw [hstart, l.first]
  · have hsum := l.sum
    dsimp only
    omega
  · rw [beside.ring hne, put.target]
  · refine put.receives.same (fun p hp => beside.same hne (put.target ▸ hp)) ?_
    rw [hsent lends.inv (hkind'.trans hkg), hsent put.lends.inv hkg]

/-- The end of the length, or of the file. -/
theorem done (l : Lending Start b a fd head start h R t it offset len k₁ k₂ s g R' ks l₁ l₂)
    (hz : s.len = 0 ∨ s.srcIt = b) :
    s.inserted = min len ((h.files fd.file).length - start) := by
  have hsum := l.sum
  have hbound := l.bound
  by_cases hl : s.len = 0
  · omega
  · obtain ⟨-, hat⟩ := l.source hl
    rcases hat with ⟨k, hk, he, -⟩ | ⟨-, hx⟩
    · exact absurd (he.symm.trans (hz.resolve_left hl)) (l.lends.page_ne hk)
    · omega

/-- **One round** puts in a page from where the loop stands, or the transfer is done. -/
theorem round (l : Lending Start b a fd head start h R t it offset len k₁ k₂ s g R' ks l₁ l₂)
    (hs : env.Succeeds) (law : CutLaw (transferAlgorithm env t σ) Start)
    (hkind : h.kindOf t = some (σ, .trivial)) (hne : t ≠ b) :
    Yields (insertBufferRound env (transferAlgorithm env t σ) t it b s) g (fun o g' =>
      match o with
      | .inl s' => s'.len < s.len ∧ ∃ R'' ks' l₁' l₂',
          Lending Start b a fd head start h R t it offset len k₁ k₂ s' g' R'' ks' l₁' l₂'
      | .inr c => g' = g ∧ c = s.inserted ∧ (s.len = 0 ∨ s.srcIt = b)) := by
  unfold insertBufferRound bufferIsEndIterator trivialBufferIsEndIterator
  by_cases hend : s.len = 0 ∨ s.srcIt = b
  · rw [if_pos (by simpa using hend)]
    exact yields_pure.mpr ⟨rfl, rfl, hend⟩
  · rw [if_neg (by simpa using hend)]
    obtain ⟨hl, hit⟩ := not_or.mp hend
    obtain ⟨hStart, hat⟩ := l.source hl
    obtain ⟨k, hk, hpage, hx, hoff⟩ : ∃ k ∈ ks, s.srcIt = k.page ∧
        k.start + s.srcOffset = start + s.inserted ∧ s.srcOffset < k.stop - k.start :=
      hat.resolve_right fun he => hit he.1
    have m := l.lends
    have hfit := m.stretch.fits k hk
    have hshow := m.shows k hk
    have hfiles : g.files fd.file = h.files fd.file := by rw [l.between.files]
    have hkg : g.kindOf t = some (σ, .trivial) := l.kind.trans hkind
    obtain ⟨B, hB, hBk⟩ := Option.map_eq_some_iff.mp hkg
    obtain ⟨rfl, -⟩ := Prod.mk.inj hBk
    have hlive : (g.pages k.page).isSome := m.inv.core.links.node_live m.opened.isSome
      (List.mem_cons_of_mem b (m.page_mem hk))
    rw [hpage]
    refine Yields.step (getBuffer_run hB) (Yields.step (pageGetLen_run hlive) ?_)
    rw [hshow.lenOf]
    have hlen : k.stop - k.start < 2 ^ 64 := by
      have hsmall := hfit.len
      have hle := m.offset_le hk
      simp only [Block.stop, mmapBaseSize] at hsmall ⊢
      omega
    obtain ⟨hpos, hle⟩ := @law.bounds B.strategy.pageSize (k.stop - k.start) s.srcOffset s.len
      (by omega) (Nat.pos_of_ne_zero hl) (by omega) (by omega)
    have hfits := @law.fits B.strategy.pageSize _ _ s.len hoff hStart
    have hwhole := @law.whole B.strategy.pageSize _ _ s.len hoff hStart
    have hnext := @law.next B.strategy.pageSize _ _ s.len hoff hStart
    generalize (transferAlgorithm env t B.strategy).cut B.strategy.pageSize (k.stop - k.start)
      s.srcOffset s.len = n at hpos hle hfits hwhole hnext ⊢
    refine Yields.bind (m.putPage hs l.ready hkg hne hk hpos hfits l.target l.receives) ?_
    intro o g₁ hpost
    obtain ⟨x, rfl, hinsert⟩ := hpost
    refine Yields.bind hinsert fun len' g₂ hpost => ?_
    obtain ⟨rfl, R₂, n₁, n₂, put⟩ := hpost
    have hout : ((h.files fd.file).drop start).take s.inserted
        ++ ((g.files fd.file).drop (k.start + s.srcOffset)).take len'
          = ((h.files fd.file).drop start).take (s.inserted + len') := by
      rw [hfiles, hx, ← List.drop_drop, ← List.take_add]
    rw [hout] at put
    have hbound : start + (s.inserted + len') ≤ (h.files fd.file).length := by
      have hstop : k.stop ≤ (g.files fd.file).length := hfit.stop
      rw [hfiles] at hstop
      omega
    have m₂ := put.lends
    have hlive₂ : (g₂.pages k.page).isSome := m₂.inv.core.links.node_live m₂.opened.isSome
      (List.mem_cons_of_mem b (m₂.page_mem hk))
    rw [if_neg (by omega)]
    refine Yields.step (pageGetLen_run hlive₂) ?_
    rw [(put.same k hk).len, hshow.lenOf]
    have hsize₂ : (g₂.files fd.file).length = (h.files fd.file).length := by
      rw [put.between.files, hfiles]
    by_cases hmove : (transferAlgorithm env t B.strategy).always = true ∨
        s.srcOffset + len' = k.stop - k.start
    · rw [if_pos (by simpa using hmove)]
      refine Yields.bind (m₂.nextIterator hs put.ready hk) fun it' g₃ hpost => ?_
      obtain ⟨ks', hon, hfirst, hp⟩ := hpost
      have hsource : s.len - len' ≠ 0 → Start 0 ∧
          StandsAt ks' b (h.files fd.file).length it' 0 (start + (s.inserted + len')) := by
        intro hrest
        have hend : s.srcOffset + len' = k.stop - k.start :=
          hmove.elim (fun ha => hwhole ha hrest) id
        have hstop : start + (s.inserted + len') = k.stop := by omega
        obtain ⟨R₃, hbeside, m₃, -⟩ := hon
        rw [hstop, ← hsize₂]
        refine ⟨law.zero, standsAt_begins hp ?_⟩
        rw [← hbeside.files]
        exact m₃.stretch
      obtain ⟨R₃, l₁', l₂', l'⟩ := l.step hkind hne hle hbound put hon hfirst hsource
      exact yields_pure.mpr ⟨by dsimp only; omega, R₃, ks', l₁', l₂', l'⟩
    · rw [if_neg (by simpa using hmove)]
      obtain ⟨-, hinside⟩ := not_or.mp hmove
      have hsource : s.len - len' ≠ 0 → Start (s.srcOffset + len') ∧ StandsAt ks b
          (h.files fd.file).length k.page (s.srcOffset + len') (start + (s.inserted + len')) :=
        fun hrest => ⟨hnext hinside hrest, .inl ⟨k, hk, rfl, by omega, by omega⟩⟩
      obtain ⟨R₃, l₁', l₂', l'⟩ := l.step hkind hne hle hbound put (m₂.onward_refl put.ready) rfl
        hsource
      exact yields_pure.mpr ⟨by dsimp only; omega, R₃, ks, l₁', l₂', l'⟩

end Lending

/-! ## The transfers -/

/-- `c` bytes from the beginning of the window on have come between `pre` and `post` in the
target. The window has stayed where it began, and the other buffers as they were. -/
structure Taken (h h' : Heap) (R R' : Nat → List Nat) (b a : Nat) (fd : Fd) (head start t : Nat)
    (pre post : List UInt8) (c : Nat) (ks' : List Block) : Prop where
  lends : Lends h' R' b a fd head ks'
  first : startOf ks' head = start
  between : Between h h' R R' b t
  kind : h'.kindOf t = h.kindOf t
  content : h'.flat (R' t) = pre ++ ((h.files fd.file).drop start).take c ++ post

namespace Lends

variable (m : Lends h R b a fd head ks)

include m

/-- Nothing is taken where the target rejects it. -/
theorem taken_none {pre post : List UInt8} (hR : h.flat (R t) = pre ++ post) :
    Taken h h R R b a fd head (startOf ks head) t pre post 0 ks where
  lends := m
  first := rfl
  between := (Beside.refl h R b).between t
  kind := rfl
  content := by
    rw [hR, List.take_zero, List.append_nil]

variable (hs : env.Succeeds)

include hs

/-- **A transfer out of the window**: as much as there is from its beginning on. -/
theorem insertBufferLoop {σ : Strategy}
    (hr : h.Ready a fd head ks (if offset = 0 then 0 else 1))
    (hkind : h.kindOf t = some (σ, .trivial)) (hne : t ≠ b) (hR : R t = k₁ ++ k₂)
    (hit : it = k₂.headD t) (hin : it ≠ t → offset < h.lenOf it) (len : Nat) :
    Yields (insertBufferLoop env (transferAlgorithm env t σ) t it offset b len) h (fun c h' =>
      c = min len ((h.files fd.file).length - startOf ks head) ∧ ∃ R' ks',
        Taken h h' R R' b a fd head (startOf ks head) t (h.before k₁ k₂ it offset)
          (h.behind k₂ it offset) c ks') := by
  obtain ⟨Start, law⟩ := transferAlgorithm_law env t σ
  unfold Pb.insertBufferLoop
  refine Yields.bind (m.getIterator hs hr) fun srcIt g hpost => ?_
  obtain ⟨ks', ⟨R', hbeside, m', hr'⟩, hfirst, hp⟩ := hpost
  have hkg : g.kindOf t = h.kindOf t := by rw [Heap.kindOf, Heap.kindOf, hbeside.buffer hne]
  have hsent : g.lenOf t = h.lenOf t := by
    have h₁ : (h.buffers t).isSome := by rw [← h.isSome_kindOf, hkind]; rfl
    have h₂ : (g.buffers t).isSome := by rw [hbeside.buffer hne]; exact h₁
    rw [(m'.inv.core.views.sentinel h₂).2, (m.inv.core.views.sentinel h₁).2]
  have hsize : startOf ks head ≤ (h.files fd.file).length := by
    rcases beginsAt_iff.mp hp with ⟨k, hk, -, hx⟩ | ⟨-, hx⟩
    · have hfit := m'.stretch.fits k hk
      have hstart := hfit.start
      have hstop : k.stop ≤ (g.files fd.file).length := hfit.stop
      rw [hbeside.files] at hstop
      omega
    · omega
  have hinit : Lending Start b a fd head (startOf ks head) h R t it offset len k₁ k₂
      ⟨offset, len, 0, srcIt, 0⟩ g R' ks' k₁ k₂ :=
    { lends := m'
      ready := hr'
      between := hbeside.between t
      kind := hkg
      first := hfirst
      sum := Nat.zero_add len
      bound := hsize
      target := by rw [hbeside.ring hne, hR]
      receives := by
        rw [List.take_zero]
        exact (Receives.init hit hin).same (fun p hp => hbeside.same hne (hR ▸ hp)) hsent
      source := fun _ => ⟨law.zero, standsAt_begins hp (by
        rw [← hbeside.files]
        exact m'.stretch)⟩ }
  refine Yields.loop
    (I := fun n s g => n = s.len ∧ ∃ R' ks' l₁ l₂, Lending Start b a fd head (startOf ks head) h R t
      it offset len k₁ k₂ s g R' ks' l₁ l₂)
    ?_ _ len _ _ ⟨rfl, R', ks', k₁, k₂, hinit⟩ (Nat.lt_succ_self _)
  intro n s g hI
  obtain ⟨rfl, R', ks', l₁, l₂, l⟩ := hI
  refine (l.round hs law hkind hne).mono fun o g' hpost => ?_
  cases o with
  | inl s' =>
      obtain ⟨hlt, R'', ks'', l₁', l₂', l'⟩ := hpost
      exact ⟨s'.len, hlt, rfl, R'', ks'', l₁', l₂', l'⟩
  | inr c =>
      obtain ⟨rfl, rfl, hend⟩ := hpost
      refine ⟨l.done hend, R', ks', l.lends, l.first, l.between, l.kind, ?_⟩
      rw [l.target, l.receives.content]

/-- **`pb_buffer_insert_buffer`** out of the window. -/
theorem insertBuffer {σ : Strategy} (hr : h.Ready a fd head ks 1)
    (hkind : h.kindOf t = some (σ, .trivial)) (hne : t ≠ b) (hR : R t = k₁ ++ k₂)
    (hit : it = k₂.headD t) (hin : it ≠ t → offset < h.lenOf it) (len : Nat) :
    Yields (trivialBufferInsertBuffer env t it offset b len) h (fun c h' =>
      c = (if it ≠ t ∧ σ.rejectsInsert = true then 0
        else min len ((h.files fd.file).length - startOf ks head)) ∧ ∃ R' ks',
          Taken h h' R R' b a fd head (startOf ks head) t (h.before k₁ k₂ it offset)
            (h.behind k₂ it offset) c ks') := by
  obtain ⟨B, hB, hBk⟩ := Option.map_eq_some_iff.mp hkind
  obtain ⟨rfl, -⟩ := Prod.mk.inj hBk
  unfold trivialBufferInsertBuffer bufferIsEndIterator trivialBufferIsEndIterator
  refine Yields.step (getBuffer_run hB) ?_
  by_cases hrej : it ≠ t ∧ B.strategy.rejectsInsert = true
  · rw [if_pos (by simpa using hrej)]
    refine yields_pure.mpr ⟨by rw [if_pos hrej], R, ks, m.taken_none ?_⟩
    rw [Heap.before_behind, hR]
  · rw [if_neg (by simpa using hrej), if_neg hrej]
    exact m.insertBufferLoop hs (hr.mono (by split <;> omega)) hkind hne hR hit hin len

/-- **`pb_buffer_write_buffer`** out of the window. -/
theorem writeBuffer {σ : Strategy} (hr : h.Ready a fd head ks 0)
    (hkind : h.kindOf t = some (σ, .trivial)) (hne : t ≠ b) (len : Nat) :
    Yields (trivialBufferWriteBuffer env t b len) h (fun c h' =>
      c = (if σ.rejectsWrite then 0
        else min len ((h.files fd.file).length - startOf ks head)) ∧ ∃ R' ks',
          Taken h h' R R' b a fd head (startOf ks head) t (h.flat (R t)) [] c ks') := by
  obtain ⟨B, hB, hBk⟩ := Option.map_eq_some_iff.mp hkind
  obtain ⟨rfl, -⟩ := Prod.mk.inj hBk
  unfold trivialBufferWriteBuffer
  refine Yields.step (getBuffer_run hB) ?_
  by_cases hrej : B.strategy.rejectsWrite
  · rw [if_pos hrej]
    refine yields_pure.mpr ⟨by rw [if_pos hrej], R, ks, m.taken_none ?_⟩
    rw [List.append_nil]
  · rw [if_neg hrej, if_neg hrej]
    refine Yields.pure_bind ?_
    have hin : t ≠ t → 0 < h.lenOf t := fun hne => absurd rfl hne
    have hready : h.Ready a fd head ks (if 0 = 0 then 0 else 1) := hr
    have hloop := m.insertBufferLoop hs hready hkind hne (List.append_nil (R t)).symm rfl hin len
    simpa [Heap.before_zero, Heap.behind_zero] using hloop

end Lends

end Pb
