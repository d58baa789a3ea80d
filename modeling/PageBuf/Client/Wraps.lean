import PageBuf.Client.Counts
import PageBuf.Invariant.PageCalls

/-!
# Wraps — how far a `use_count` counts

A `use_count` is a `uint16_t`, and nothing bounds how many pages share one
`pb_data`. The counts are exact as long as no page is made from data that has
65535 users already; the next user makes the counter come round to zero.
-/

namespace Pb

open StateRun Function Ring RefCount

variable {env : Env} {h h' : Heap} {R : Nat → List Nat} {F : List Nat} {b d x : Nat}
  {c c' : Layout}

/-! ## Counted data -/

/-- The record of `d` is its number of page objects, and gone when that is
zero. -/
def Heap.Counted (h : Heap) (d : Nat) : Prop :=
  (h.usesOf d = none ∧ h.refs d = 0) ∨
    (h.usesOf d = some (h.refs d) ∧ 0 < h.refs d ∧ h.refs d ≤ 65535 ∧ d < h.next)

/-- Pages are made from data that can have another user. -/
def countable : Allowance where
  share := fun _ _ _ n => n < 65535
  split := fun _ _ n => n < 65535

section Counted

variable {u : Nat}

theorem Heap.Counted.eq (hc : h.Counted d) (hu : h.usesOf d = some u) :
    u = h.refs d ∧ 0 < h.refs d := by
  rcases hc with ⟨hn, -⟩ | ⟨hs, hpos, -, -⟩
  · rw [hn] at hu
    cases hu
  · rw [hs] at hu
    cases hu
    exact ⟨rfl, hpos⟩

theorem Heap.Counted.congr (hc : h.Counted d) (hu : h'.usesOf d = h.usesOf d)
    (hr : h'.refs d = h.refs d) (hn : h.next ≤ h'.next) : h'.Counted d := by
  unfold Heap.Counted
  rw [hu, hr]
  exact hc.imp id fun hs => ⟨hs.1, hs.2.1, hs.2.2.1, Nat.lt_of_lt_of_le hs.2.2.2 hn⟩

/-- Data beyond the addresses given out have no users. -/
theorem Heap.Counted.fresh (hc : h.Counted d) (hd : h.next ≤ d) : h.refs d = 0 := by
  rcases hc with ⟨-, hz⟩ | ⟨-, -, -, hlt⟩
  · exact hz
  · omega

/-- The record of data that has lost a user is what `put` leaves of it. -/
theorem Heap.Counted.lose (hc : h.Counted d) (hu : h.usesOf d = some u)
    (hr : h'.refs d + 1 = h.refs d) (hu' : h'.usesOf d = putUse u) (hn : h.next ≤ h'.next) :
    h'.Counted d := by
  rcases hc with ⟨hnone, -⟩ | ⟨hs, hpos, hle, hlt⟩
  · rw [hnone] at hu
    cases hu
  · rw [hs] at hu
    cases hu
    have hdec : u16Dec (h.refs d) = h'.refs d := by
      unfold u16Dec
      rw [if_neg (by omega)]
      omega
    unfold Heap.Counted
    rw [hu', putUse, hdec]
    by_cases hz : h'.refs d = 0
    · rw [if_pos hz]
      exact .inl ⟨rfl, hz⟩
    · rw [if_neg hz]
      exact .inr ⟨rfl, by omega, by omega, by omega⟩

theorem u16Inc_of_lt {n : Nat} (hn : n < 65535) : u16Inc n = n + 1 :=
  if_neg (by omega)

/-- One more user. -/
theorem counted_gain (hl : Links h R F) (hK : ∀ e, h.Counted e) (hx : h.next ≤ x)
    (hx' : x < h'.next) (hn : h.next ≤ h'.next) (hd : d < h'.next) (hfew : h.refs d < 65535)
    (hdata : h'.dataOf = update h.dataOf x (some d))
    (huses : h'.usesOf = update h.usesOf d (some (h.refs d + 1))) (e : Nat) : h'.Counted e := by
  have hrefs := Heap.refs_newPage hl hx hx' hdata e
  by_cases he : d = e
  · subst he
    rw [if_pos rfl] at hrefs
    refine .inr ⟨?_, by omega, by omega, hd⟩
    rw [huses, update_self, hrefs]
  · rw [if_neg he, Nat.add_zero] at hrefs
    refine (hK e).congr ?_ hrefs hn
    rw [huses, update_of_ne (Ne.symm he)]

/-- One user less. -/
theorem counted_lose (hl : Links h R F) (hK : ∀ e, h.Counted e) (hn : h.next ≤ h'.next)
    (hx : h.dataOf x = some d) (hu : h.usesOf d = some u)
    (hdata : h'.dataOf = update h.dataOf x none)
    (huses : h'.usesOf = update h.usesOf d (putUse u)) (e : Nat) : h'.Counted e := by
  have hlt : x < h'.next := by
    refine Nat.lt_of_lt_of_le ?_ hn
    by_contra hge
    rw [hl.dataOf_none (by omega)] at hx
    cases hx
  have hrefs := Heap.refs_update hl hlt hn hdata e
  rw [hx, if_neg (by simp : ¬(none : Option Nat) = some e)] at hrefs
  by_cases he : d = e
  · subst he
    rw [if_pos rfl] at hrefs
    refine (hK d).lose hu hrefs ?_ hn
    rw [huses, update_self]
  · rw [if_neg (by simpa using he)] at hrefs
    refine (hK e).congr ?_ hrefs hn
    rw [huses, update_of_ne (Ne.symm he)]

/-- One user goes over to data that was just made. -/
theorem counted_move {e₀ : Nat} (hl : Links h R F) (hK : ∀ e, h.Counted e)
    (hn : h.next ≤ h'.next) (hx : h.dataOf x = some e₀) (hu : h.usesOf e₀ = some u) (hne : e₀ ≠ d)
    (hd : h.next ≤ d) (hd' : d < h'.next) (hdata : h'.dataOf = update h.dataOf x (some d))
    (huses : h'.usesOf = update (update h.usesOf e₀ (putUse u)) d (some 1)) (e : Nat) :
    h'.Counted e := by
  have hlt : x < h'.next := by
    refine Nat.lt_of_lt_of_le ?_ hn
    by_contra hge
    rw [hl.dataOf_none (by omega)] at hx
    cases hx
  have hrefs := Heap.refs_update hl hlt hn hdata e
  rw [hx] at hrefs
  by_cases he : d = e
  · subst he
    have hz := (hK d).fresh hd
    rw [if_neg (by simpa using hne), if_pos rfl, hz] at hrefs
    refine .inr ⟨?_, by omega, by omega, hd'⟩
    rw [huses, update_self, show h'.refs d = 1 by omega]
  · rw [if_neg (by simpa using he : ¬some d = some e)] at hrefs
    by_cases he' : e₀ = e
    · subst he'
      rw [if_pos rfl, Nat.add_zero] at hrefs
      refine (hK e₀).lose hu hrefs ?_ hn
      rw [huses, update_of_ne (Ne.symm he), update_self]
    · rw [if_neg (by simpa using he')] at hrefs
      refine (hK e).congr ?_ hrefs hn
      rw [huses, update_of_ne (Ne.symm he), update_of_ne (Ne.symm he')]

end Counted

/-- All records are exact, and every page in a ring or in flight has data. -/
structure Layout.Counts (c : Layout) : Prop where
  counted : ∀ d, c.heap.Counted d
  data : ∀ p, c.Holds p → (c.heap.dataOf p).isSome

/-- **The step lemma.** -/
theorem Layout.Counts.step (hc : c.Counts) (ft : Footing c.heap c.rings c.flight)
    (s : PageStep countable c c') : c'.Counts := by
  have hl := ft.links
  have hK := hc.counted
  refine ⟨fun e => ?_, fun q hq => ?_⟩
  · cases s.effect with
    | @quiet h h' R F u hu ch =>
        have hrefs := Heap.refs_congr ch.data ch.next hl.fresh e
        rcases hu e with hsame | ⟨hnew, hnone⟩
        · exact (hK e).congr ((congrFun ch.uses e).trans hsame) hrefs ch.next
        · exact .inl ⟨(congrFun ch.uses e).trans hnone, hrefs.trans ((hK e).fresh hnew)⟩
    | own hx hx' hd hd' hn hv ch =>
        have hz := (hK _).fresh hd
        refine counted_gain hl hK hx hx' ch.next hd' (by rw [hz]; omega) ch.data ?_ e
        rw [hz]
        exact ch.uses
    | share hx hx' hp hu hn hg ch =>
        obtain ⟨rfl, -⟩ := (hK _).eq hu
        have hlt := Nat.lt_of_lt_of_le (ft.born hp) ch.next
        exact counted_gain hl hK hx hx' ch.next hlt hg ch.data (u16Inc_of_lt hg ▸ ch.uses) e
    | split hb hR hy hy' hd hu hpos hle hg ch =>
        obtain ⟨rfl, -⟩ := (hK _).eq hu
        have hlt := Nat.lt_of_lt_of_le (ft.born hd) ch.next
        exact counted_gain hl hK hy hy' ch.next hlt hg ch.data (u16Inc_of_lt hg ▸ ch.uses) e
    | link hR ch =>
        exact (hK e).congr (congrFun ch.uses e) (Heap.refs_congr ch.data ch.next hl.fresh e) ch.next
    | destroy hd hu ch => exact counted_lose hl hK ch.next hd hu ch.data ch.uses e
    | shrink hb hp hn hv ch =>
        exact (hK e).congr (congrFun ch.uses e) (Heap.refs_congr ch.data ch.next hl.fresh e) ch.next
    | drop hb hR hd hu ch => exact counted_lose hl hK ch.next hd hu ch.data ch.uses e
    | dup hb hp hd hu hne hd' hd'' hlen hv ch =>
        exact counted_move hl hK ch.next hd hu hne hd' hd'' ch.data ch.uses e
  · rcases (s.held ft hq).data with hsome | ⟨hold, hsame⟩
    · exact hsome
    · rw [hsame]
      exact hc.data q hold

/-! ## What keeps the counts -/

/-- If the insertion splits the page `it`, another user of its data can be
counted. -/
def SplitFits (h : Heap) (it off : Nat) : Prop :=
  0 < min off (h.lenOf it) → ∀ d, h.dataOf it = some d → h.users d < 65535

/-- The users that a round of a transfer adds, by sharing its source page and by
splitting the page at the place, can be counted. -/
structure RoundCounts (strategy : Strategy) (it : Nat) (g : Heap) (s : TransferLoop) : Prop where
  share : strategy.cloneOnWrite = false → ∀ d, g.dataOf s.srcIt = some d → g.users d < 65535
  split : 0 < min s.offset (g.lenOf it) → ∀ d, g.dataOf it = some d →
    g.users d + (if sharedBy strategy g s.srcIt = some d then 1 else 0) < 65535

/-- It finds bytes on its source page as well. -/
structure RoundFits (strategy : Strategy) (it : Nat) (g : Heap) (s : TransferLoop) : Prop
    extends RoundCounts strategy it g s where
  filled : 0 < g.lenOf s.srcIt

/-- Every round that a transfer comes to satisfies `P`. -/
def EveryRound (P : Strategy → Nat → Heap → TransferLoop → Prop) (env : Env) (h : Heap)
    (b it off src len : Nat) : Prop :=
  ∀ B s g, h.buffers b = some B →
    LoopReaches (insertBufferRound env (transferAlgorithm env b B.strategy) b it src)
      (⟨off, len, 0, (h.pagesOf src).headD src, 0⟩, h) (s, g) →
    s.len ≠ 0 → s.srcIt ≠ src → P B.strategy it g s

/-- No `use_count` is asked to count further than it can, where the rounds of
transfers satisfy `P`. -/
def KeepsCounts (P : Strategy → Nat → Heap → TransferLoop → Prop) (env : Env) (h : Heap) :
    Action → Prop
  | .op (.insertData b it off buf) => SplitFits h it off ∨ buf = [] ∨ h.RejectsInsert b
  | .op (.insertDataRef b it off _ len) => SplitFits h it off ∨ len = 0 ∨ h.RejectsInsert b
  | .op (.insertBuffer b it off src len) =>
      EveryRound P env h b it off src len ∨ it ≠ b ∧ h.RejectsInsert b
  | .op (.writeBuffer b src len) => EveryRound P env h b b 0 src len ∨ h.RejectsWrite b
  | _ => True

theorem Footing.users_eq (ft : Footing h R []) (d : Nat) : h.users d = h.refs d :=
  ft.links.users_eq (fun hb => (ft.sentinel hb).1) d

theorem SplitFits.maySplit {it off : Nat} {P : Prop} (ft : Footing h R [])
    (hb : (h.buffers b).isSome) (hs : SplitFits h it off ∨ P ∨ h.RejectsInsert b) (hP : ¬P)
    (hacc : it ≠ b → ¬h.RejectsInsert b) : MaySplit countable h it off none := by
  intro hpos d hd
  have hne : it ≠ b := by
    rintro rfl
    rw [(ft.sentinel hb).2] at hpos
    omega
  rcases hs with hs | hp | hrej
  · have hfew := hs hpos d hd
    rw [ft.users_eq d] at hfew
    exact hfew
  · exact absurd hp hP
  · exact absurd hrej (hacc hne)

/-- The rounds of a transfer, as the loop comes to them. -/
theorem EveryRound.at {P : Strategy → Nat → Heap → TransferLoop → Prop} {G : Allowance}
    {Start : Nat → Prop} {K : Prop} {it off src len : Nat} {B : Buffer} {s : TransferLoop}
    {g : Heap} {R' : Nat → List Nat} (hr : EveryRound P env h b it off src len)
    (ft : Footing h R []) (hsrc : (h.buffers src).isSome) (hB : h.buffers b = some B)
    (t : TransferAt G Start K b src it off len h R s g R')
    (hreach : LoopReaches (insertBufferRound env (transferAlgorithm env b B.strategy) b it src)
      (⟨off, len, 0, (R src).headD src, 0⟩, h) (s, g))
    (hl : s.len ≠ 0) (hs : s.srcIt ∈ R' src) : P B.strategy it g s := by
  have ft' : Footing g R' [] := t.steps.footing ft
  have hne : s.srcIt ≠ src := by
    intro he
    have hkind := t.steps.kind
    have hsrc' : (g.buffers src).isSome := by rwa [Heap.buffers_isSome_congr hkind]
    exact ft'.links.notMem_self hsrc' (he ▸ hs)
  rw [← ft.links.pagesOf hsrc] at hreach
  exact hr B s g hB hreach hl hne

theorem RoundCounts.split_few {σ : Strategy} {it : Nat} {s : TransferLoop}
    (rc : RoundCounts σ it h s) (ft : Footing h R []) :
    MaySplit countable h it s.offset (sharedBy σ h s.srcIt) := by
  intro hpos d hd
  have hfew := rc.split hpos d hd
  rw [ft.users_eq d] at hfew
  exact hfew

theorem RoundCounts.share_few {σ : Strategy} {it : Nat} {s : TransferLoop}
    (rc : RoundCounts σ it h s) (ft : Footing h R []) (hc : σ.cloneOnWrite = false)
    (hd : h.dataOf s.srcIt = some d) : h.refs d < 65535 := by
  have hfew := rc.share hc d hd
  rwa [ft.users_eq d] at hfew

theorem EveryRound.allowed {it off src len : Nat} (ft : Footing h R [])
    (hsrc : (h.buffers src).isSome) (hr : EveryRound RoundFits env h b it off src len) :
    TransferAllowed env countable h R b it off src len := by
  intro B Start s g R' hB _ t hreach hl hs
  have ft' : Footing g R' [] := t.steps.footing ft
  have hfits := hr.at ft hsrc hB t hreach hl hs
  exact ⟨hfits.filled, fun hc d hd => hfits.share_few ft' hc hd, hfits.split_few ft'⟩

theorem counts_run : RunInvariant env countable (KeepsCounts RoundFits env) Layout.Counts where
  initial := fun mem callerLen files => by
    refine ⟨fun d => .inl ⟨rfl, ?_⟩, fun p hp => ?_⟩
    · exact holders_zero _ d
    · rcases hp with ⟨c, hc⟩ | hF
      · cases hc
      · cases hF
  step := fun c c' ft hc s => hc.step ft s
  view := fun h h' R ft v hc => by
    refine ⟨fun d => ?_, fun p hp => ?_⟩
    · have hrefs := Heap.refs_congr v.data v.next ft.links.fresh d
      exact (hc.counted d).congr (congrFun v.uses d) hrefs v.next
    · show (h'.dataOf p).isSome
      rw [v.data]
      exact hc.data p hp
  allowed := fun h R a ft hc hn hM => by
    cases a with
    | overwriteBuffer b src len => trivial
    | op o =>
        cases o with
        | insertData b it off buf =>
            intro hne hacc
            exact SplitFits.maySplit ft hn.1.isSome hM hne hacc
        | insertDataRef b it off buf len =>
            intro hne hacc
            exact SplitFits.maySplit ft hn.1.isSome hM hne hacc
        | insertBuffer b it off src len =>
            obtain ⟨ht, -, hsrc, -⟩ := hn
            intro hacc
            rcases hM with hr | ⟨hne, hrej⟩
            · exact hr.allowed ft hsrc.isSome
            · exact absurd hrej (hacc hne)
        | writeBuffer b src len =>
            obtain ⟨ht, hsrc, -⟩ := hn
            intro hacc
            rcases hM with hr | hrej
            · exact hr.allowed ft hsrc.isSome
            · exact absurd hrej hacc
        | _ => trivial

/-- No `pb_data` has more users than its counter counts, the counter is their
number, and the data of a linked page is there. -/
structure CountsHold (h : Heap) : Prop where
  bound : ∀ d, h.users d < 65536
  count : ∀ {d D}, h.datas d = some D → D.useCount = h.users d
  linked : ∀ {b p}, (h.buffers b).isSome → p ∈ h.pagesOf b →
    ∃ d D, h.dataOf p = some d ∧ h.datas d = some D

section Share

variable {G : Allowance} {src p : Nat} {B : Buffer}

/-- Linking a new page at the end leaves the users as they are. -/
theorem returns_insertEnd (hl : Links h R (x :: F)) (ht : h.IsTrivial b) :
    Returns (trivialBufferInsert env b b 0 x) h (fun k h' =>
      k = h.lenOf x ∧ h'.kindOf = h.kindOf ∧ h'.refs d = h.refs d) := by
  unfold trivialBufferInsert
  refine Returns.bind (returns_trivialBufferInsertBump ht b) ?_
  intro u h₁ s₁
  have hl₁ : Links h₁ R (x :: F) := hl.still s₁.pages s₁.kind s₁.next
  have ht₁ : h₁.IsTrivial b := ht.congr s₁.kind
  refine returns_pageGetLen fun _ => ?_
  simp only [Nat.not_lt_zero, gt_iff_lt, if_false, ne_eq, not_true_eq_false]
  refine returns_getPage fun N hN => ?_
  have hprev : N.prev = some ((R b).getLastD b) := by
    rw [← Heap.prevOf_eq hN]
    exact (hl₁.ring ht₁.isSome).prev_end
  rw [hprev]
  have hcut : R b = R b ++ [] := (List.append_nil _).symm
  refine (returns_linkPage hl₁ ht₁.isSome hcut).mono ?_
  intro k h' hk
  obtain ⟨rfl, ch, -⟩ := hk
  refine ⟨by rw [Heap.lenOf_congr s₁.pages], ch.kind.trans s₁.kind, ?_⟩
  rw [Heap.refs_congr ch.data ch.next hl₁.fresh,
    Heap.refs_congr (Heap.dataOf_congr s₁.pages) s₁.next hl.fresh]

/-- Writing one byte by sharing its page adds one user. -/
theorem returns_writeOne (hl : Links h R []) (hB : h.buffers b = some B)
    (hop : B.operations = .trivial) (hσ : B.strategy = trivialBufferStrategy)
    (hsrc : h.IsTrivial src) (hR : R src = [p]) (hlen : h.lenOf p = 1) (hd : h.dataOf p = some d)
    (hborn : d < h.next) :
    Returns (trivialBufferWriteBuffer env b src 1) h
      (fun k h' => k = 1 → h'.refs d = h.refs d + 1) := by
  have hp : p ∈ R src := hR ▸ List.mem_singleton_self p
  have hne : p ≠ src := fun he => hl.notMem_self hsrc.isSome (he ▸ hp)
  unfold trivialBufferWriteBuffer insertBufferLoop
  refine Returns.step (getBuffer_run hB) ?_
  rw [if_neg (by rw [hσ]; decide), hσ]
  refine Returns.pure_bind (Returns.step (bufferGetIterator_run hsrc hl) ?_)
  rw [hR, List.headD_cons]
  refine Returns.loop (I := fun s g => (s = ⟨0, 1, 0, p, 0⟩ ∧ g = h) ∨
    (s.len = 0 ∧ g.refs d = h.refs d + 1)) ?_ _ _ _ (.inl ⟨rfl, rfl⟩)
  intro s g hI
  unfold insertBufferRound bufferIsEndIterator trivialBufferIsEndIterator
  rcases hI with ⟨rfl, rfl⟩ | ⟨hz, hrefs⟩
  · rw [if_neg (by simp [hne])]
    refine Returns.step (getBuffer_run hB) (returns_pageGetLen fun _ => ?_)
    rw [hlen]
    have hmake : MakesNew ⟨fun _ _ _ _ => True, fun _ _ _ => True⟩ (makeSharedPage env p 1 0) g R [] 1
        (g.dataOf p) :=
      makesNew_shared hl Nat.one_pos 0 (Nat.ne_of_lt (hl.ring_fresh hp)) fun _ _ => trivial
    refine Returns.bind hmake ?_
    intro r g₁ hr
    cases r with
    | none => exact Returns.pure (fun he => by cases he)
    | some x =>
        have np : NewPage _ g g₁ R [] x 1 (g.dataOf p) := hr
        have ht₁ : g₁.IsTrivial b := Heap.IsTrivial.congr ⟨B, hB, hop⟩ np.step.effect.kind
        refine Returns.bind (returns_insertEnd (d := d) np.step.links ht₁) ?_
        rintro k g₂ ⟨rfl, hkind, hrefs⟩
        have hone : g₁.lenOf x = 1 := by rw [np.len, update_self]
        rw [hone, if_neg Nat.one_ne_zero]
        have hgain : g₂.refs d = g.refs d + 1 := by
          rw [hrefs, np.refs d hborn, if_pos hd]
        refine returns_pageGetLen fun _ => ?_
        -- the first algorithm always moves on
        have hsrc₂ := hsrc.congr (hkind.trans np.step.effect.kind)
        refine Returns.bind (returns_bufferNextIterator hsrc₂ p) ?_
        intro it' _ he
        cases he
        exact Returns.pure (.inr ⟨rfl, hgain⟩)
  · rw [if_pos (by simp [hz])]
    exact Returns.pure fun _ => hrefs

end Share

/-- One byte on the page 6 of the buffer 1. -/
def Heap.singleByte : Heap :=
  (Heap.twoBuffers trivialBufferStrategy trivialBufferStrategy).after .generous (.writeData 1 [9])

/-- The data of the page 6 of the buffer 1 has `n` users. -/
structure Piled (h : Heap) (n : Nat) : Prop where
  reachable : Reachable .generous h
  named : ReachableBy .generous (fun _ _ => True) h
  target : h.kindOf 3 = some (trivialBufferStrategy, .trivial)
  source : h.IsTrivial 1
  pages : h.pagesOf 1 = [6]
  len : h.lenOf 6 = 1
  data : h.dataOf 6 = some 5
  users : h.users 5 = n

theorem piled_singleByte : Piled .singleByte 1 where
  reachable := (reachable_twoBuffers _ _).after (isTrivial_twoBuffers _ _).1 (by decide) (by decide)
  named := (reachableBy_twoBuffers (fun _ _ => trivial) _ _).after (isTrivial_twoBuffers _ _).1
    trivial (by decide)
  target := by decide
  source := ⟨_, rfl, rfl⟩
  pages := by decide
  len := by decide
  data := by decide
  users := by decide

/-- If the counts always held, writing the byte to the buffer 3 would always
add a user. -/
theorem Piled.next {n : Nat} (hp : Piled h n)
    (hall : ∀ g, ReachableBy .generous (fun _ _ => True) g → CountsHold g) :
    ∃ h', Piled h' (n + 1) := by
  obtain ⟨R, s⟩ := hp.reachable.sound
  have hno : ¬Refused .generous := by
    rintro ⟨k, hk⟩
    cases hk
  obtain ⟨B, hB, hk⟩ := Option.map_eq_some_iff.mp hp.target
  obtain ⟨hσ, hop⟩ := Prod.mk.inj hk
  have ht : h.IsTrivial 3 := ⟨B, hB, hop⟩
  have hR : R 1 = [6] := by rw [← s.pagesOf hp.source.isSome, hp.pages]
  have hfull : h.Full (R 1) := by
    rw [hR]
    intro q hq
    rw [List.mem_singleton.mp hq, hp.len]
    exact Nat.one_pos
  have hbytes : (h.flat (R 1)).length = 1 := by
    rw [hR]
    simp [Heap.flat, Heap.length_pageBytes, hp.len]
  -- the write returns one byte
  obtain ⟨k, h', hrun, -, hpost⟩ := trivialBufferWriteBuffer_spec s.inv hB hop
    hp.source hfull (by omega : 1 < 2 ^ 64)
  obtain ⟨hfails, R₁, out, -, -, g⟩ := hpost (.inr hno)
  have hk : k = 1 := by
    by_contra hne
    rcases hfails (by omega) (by rw [hbytes]; exact hne) with hf | hf
    · exact hno hf
    · rw [hσ] at hf
      cases hf
  subst hk
  have hexec : exec .generous (.writeBuffer 3 1 1) h = .ok (.count 1, h') := (bind_run hrun).trans rfl
  have hvalid : (Op.writeBuffer 3 1 1).Valid h := ⟨ht, hp.source, by omega⟩
  -- what it leaves is sound, and all counts are small
  obtain ⟨R', s', m⟩ := (exec_leads s hp.reachable.small hvalid).of_run hexec (.inr hno)
  have hnamed : ReachableBy .generous (fun _ _ => True) h' :=
    hp.named.step (a := .op (.writeBuffer 3 1 1)) ⟨ht, hp.source, by omega⟩ trivial hexec
  have hsmall : h'.Small := fun d => by
    have := (hall h' hnamed).bound d
    rw [s'.inv.users_eq d] at this
    omega
  obtain ⟨hbuf, hsame⟩ := m.other hp.source.isSome (by decide)
  have h6 := hsame 6 (by rw [hR]; exact List.mem_singleton_self 6)
  have hborn : 5 < h.next := by
    obtain ⟨sh, hsh⟩ := s.inv.core.data_live hp.data
    exact s.inv.core.objs.freshData (by rw [hsh]; rfl)
  have hrefs := returns_writeOne s.inv.core.links hB hop hσ hp.source hR hp.len hp.data hborn 1 h' hrun
    rfl
  refine ⟨h', hp.reachable.call ⟨hvalid, hp.reachable.small, hexec, hsmall⟩, hnamed, ?_, ?_, ?_,
    by rw [h6.len, hp.len], by rw [h6.data, hp.data], ?_⟩
  · rw [g.frame.kind, hp.target]
  · exact hp.source.congr g.frame.kind
  · have hb : (h'.buffers 1).isSome := by rw [hbuf]; exact hp.source.isSome
    rw [s'.pagesOf hb, m.ring (by decide), hR]
  · rw [s'.inv.users_eq, hrefs, ← s.inv.users_eq, hp.users]

/-- The length that a round of a transfer leaves to go. -/
def lenLeft : Except Fault ((TransferLoop ⊕ Nat) × Heap) → Nat
  | .ok (.inl s, _) => s.len
  | _ => 0

/-- The one round of the write of one byte. -/
theorem fits_singleByte : EveryRound RoundFits .generous .singleByte 3 3 0 1 1 := by
  intro B s g hB hreach hlen hne
  have hσ : B.strategy = trivialBufferStrategy := by
    have hkind : Heap.singleByte.kindOf 3 = some (trivialBufferStrategy, .trivial) := by decide
    rw [Heap.kindOf, hB] at hkind
    exact (Prod.mk.inj (Option.some.inj hkind)).1
  rw [hσ] at hreach
  have hpages : Heap.singleByte.pagesOf 1 = [6] := by decide
  rw [hpages, List.headD_cons] at hreach
  have hfirst : (s = ⟨0, 1, 0, 6, 0⟩ ∧ g = .singleByte) ∨ s.len = 0 := by
    refine hreach.invariant (I := fun s g => (s = ⟨0, 1, 0, 6, 0⟩ ∧ g = .singleByte) ∨ s.len = 0)
      (.inl ⟨rfl, rfl⟩) ?_
    rintro s₁ g₁ s₂ g₂ (⟨rfl, rfl⟩ | hz) hrun
    · right
      have hlast : lenLeft (insertBufferRound .generous (transferAlgorithm1 .generous) 3 3 1
          ⟨0, 1, 0, 6, 0⟩ Heap.singleByte) = 0 := by decide
      have hrun' : insertBufferRound .generous (transferAlgorithm1 .generous) 3 3 1
          ⟨0, 1, 0, 6, 0⟩ Heap.singleByte = .ok (.inl s₂, g₂) := hrun
      rw [hrun'] at hlast
      exact hlast
    · unfold insertBufferRound at hrun
      rw [if_pos (by simp [hz])] at hrun
      cases hrun
  rcases hfirst with ⟨rfl, rfl⟩ | hz
  · have hdata : Heap.singleByte.dataOf 6 = some 5 := by decide
    refine ⟨⟨fun _ d hd => ?_, fun hpos => ?_⟩, by decide⟩
    · rw [hdata] at hd
      cases hd
      decide
    · exact absurd hpos (by decide)
  · exact absurd hz hlen

end Pb
