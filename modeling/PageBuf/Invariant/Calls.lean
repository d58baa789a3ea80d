import PageBuf.Invariant.Transfer
import PageBuf.Invariant.Positions
import PageBuf.Invariant.Lifecycle

/-!
# Calls — every correct call keeps the invariant

`Sound` is the invariant of a client of trivial buffers. A correct call does
not fault and leads to a sound state, and what changes is `Moved`; runs follow
by induction. That a call keeps the invariant does not need that all buffers
are trivial, so it is proved of `Filled` states.
-/

namespace Pb

open StateRun Function Ring RefCount

variable {env : Env} {h h' h'' : Heap} {R R' R'' : Nat → List Nat} {b it offset : Nat}
  {B : Buffer}

/-- `R b` are the pages of `b`, and none of them is empty. -/
structure Filled (h : Heap) (R : Nat → List Nat) : Prop where
  inv : Inv h R
  full : ∀ b, h.Full (R b)

namespace Filled

variable (f : Filled h R)

include f

theorem of_untouched (hi : Inv h' R') (u : Untouched b h h' R R') (hf : h'.Full (R' b)) :
    Filled h' R' where
  inv := hi
  full := fun c => by
    rcases eq_or_ne c b with rfl | hne
    · exact hf
    · intro p hp
      rw [u.ring hne] at hp
      rw [(u.same hne hp).len]
      exact f.full c p hp

theorem grown {pre out post : List UInt8} {Inside AtEnd : Prop}
    (g : Grown b h h' R R' [] [] pre out post Inside AtEnd) (hin : Inside) : Filled h' R' :=
  f.of_untouched ⟨g.core, g.totals⟩ g.frame.untouched (g.full (f.full b) hin)

theorem became {r : Nat} {out : List UInt8} (c : Became b h h' R R' r out) : Filled h' R' :=
  f.of_untouched c.inv c.frame.untouched (c.full (f.full b))

theorem idle (i : Idle h h') (hm : h'.mem = h.mem) (hb : h'.buffers = h.buffers) :
    Filled h' R := by
  have q := Core.idle_quiet i hm hb (fun _ => True)
  refine ⟨⟨f.inv.core.idle i, f.inv.totals.quiet q (fun _ => trivial)⟩, fun c p hp => ?_⟩
  rw [(q.same trivial).len]
  exact f.full c p hp

end Filled

/-- The invariant of a client of trivial buffers: `R b` are the pages of `b`,
none of them is empty, and there is no mmap allocator. -/
structure Sound (h : Heap) (R : Nat → List Nat) : Prop where
  inv : Inv h R
  full : ∀ b, h.Full (R b)
  plain : ∀ a, h.mmapAllocators a = none

namespace Sound

variable (s : Sound h R)

include s

theorem allocRefs (a : Nat) : h.allocRefs a = 0 := by
  by_contra hn
  have := (s.inv.core.allocs.live a).mpr (Nat.pos_of_ne_zero hn)
  simp [s.plain a] at this

theorem fits (hs : h.Small) : h.Fits :=
  ⟨hs, fun a => by rw [s.allocRefs]; exact Nat.zero_le _⟩

/-- Without allocators every buffer is trivial. -/
theorem isTrivial (hb : (h.buffers b).isSome) : h.IsTrivial b := by
  obtain ⟨B, hB⟩ := Option.isSome_iff_exists.mp hb
  cases hop : B.operations with
  | trivial => exact ⟨B, hB, hop⟩
  | mmap a =>
      exfalso
      have hba : h.bufferAllocatorOf b = some a := by
        rw [Heap.bufferAllocatorOf, Heap.kindOf, hB, Option.map_some, hop]
        rfl
      have hpos : 0 < holders h.next h.bufferAllocatorOf a :=
        holders_pos_iff.mpr ⟨b, s.inv.core.links.buffer_fresh hb, hba⟩
      have := s.allocRefs a
      unfold Heap.allocRefs at this
      omega

/-- Without allocators no data is mapped. -/
theorem data_trivial {sh : Shape} (hd : h.shapeOf d = some sh) : sh.operations = .trivial := by
  cases hop : sh.operations with
  | trivial => rfl
  | mmap a off obsolete =>
      obtain ⟨-, -, A, -, -, -, hA, -⟩ := s.inv.core.allocs.mapped hd hop
      simp [s.plain a] at hA

theorem pagesOf (hb : (h.buffers b).isSome) : h.pagesOf b = R b :=
  s.inv.core.links.pagesOf hb

theorem content (hb : (h.buffers b).isSome) : h.content b = h.flat (R b) :=
  s.inv.core.links.content hb

theorem filled : Filled h R := ⟨s.inv, s.full⟩

/-- No allocator comes from nowhere. -/
theorem of_filled (f : Filled h' R') (w : World h h') : Sound h' R' where
  inv := f.inv
  full := f.full
  plain := fun a => by
    by_contra hn
    obtain ⟨A, hA⟩ := Option.ne_none_iff_exists'.mp hn
    obtain ⟨A', hA', -⟩ := w.allocator hA
    simp [s.plain a] at hA'

theorem grown {pre out post : List UInt8} {Inside AtEnd : Prop}
    (g : Grown b h h' R R' [] [] pre out post Inside AtEnd) (hin : Inside) : Sound h' R' :=
  s.of_filled (s.filled.grown g hin) g.frame.world

theorem became {r : Nat} {out : List UInt8} (c : Became b h h' R R' r out) : Sound h' R' :=
  s.of_filled (s.filled.became c) c.frame.world

theorem idle (i : Idle h h') (hm : h'.mem = h.mem) (hb : h'.buffers = h.buffers) :
    Sound h' R :=
  s.of_filled (s.filled.idle i hm hb) i.world

end Sound

/-! ## What a call may change -/

/-- Between two states of a client: buffers other than `target` are as they
were, and while the revision of a buffer stands its pages do. Buffers that are
gone do not come back. -/
structure Moved (target : Option Nat) (h h' : Heap) (R R' : Nat → List Nat) : Prop where
  world : World h h'
  ring : ∀ {c}, some c ≠ target → R' c = R c
  other : ∀ {c}, (h.buffers c).isSome → some c ≠ target →
    h'.buffers c = h.buffers c ∧ ∀ p ∈ R c, Same h h' p
  stable : ∀ {c}, (h'.buffers c).isSome → c < h.next →
    (h.buffers c).isSome ∧ h.revOf c ≤ h'.revOf c ∧ Stable c h h' R R'
  born : ∀ {c}, (h'.buffers c).isSome → target = none ∨ (h.buffers c).isSome

theorem Moved.of_frame (f : Frame b h h' R R') (st : Stable b h h' R R') :
    Moved (some b) h h' R R' where
  world := f.world
  ring := fun {c} hne => f.ring fun he => hne (by rw [he])
  other := fun {c} _ hne => by
    have hcb : c ≠ b := fun he => hne (by rw [he])
    exact ⟨f.buffer hcb, fun p hp => f.same hcb hp⟩
  stable := fun {c} hc _ => by
    rw [Heap.buffers_isSome_congr f.kind] at hc
    refine ⟨hc, ?_⟩
    rcases eq_or_ne c b with rfl | hne
    · exact ⟨f.revision, st⟩
    · refine ⟨by rw [Heap.revOf, Heap.revOf, f.buffer hne], fun _ => ?_⟩
      rw [f.ring hne]
      exact ⟨List.prefix_refl _, fun p hp => f.same hne hp, id⟩
  born := fun {c} hc => by
    rw [Heap.buffers_isSome_congr f.kind] at hc
    exact .inr hc

theorem Moved.of_quiet (q : Quiet (fun _ => True) h h') (target : Option Nat) :
    Moved target h h' R R where
  world := q.world
  ring := fun _ => rfl
  other := fun _ _ => ⟨by rw [q.buffers], fun _ _ => q.same trivial⟩
  stable := fun {c} hc _ => by
    rw [q.buffers] at hc
    refine ⟨hc, by rw [Heap.revOf, Heap.revOf, q.buffers], fun _ => ?_⟩
    exact ⟨List.prefix_refl _, fun _ _ => q.same trivial, id⟩
  born := fun {c} hc => by
    rw [q.buffers] at hc
    exact .inr hc

/-! ## The operations -/

/-- A call that leads to a sound state, unless a refused request meets a count
that does not fit. -/
def Leads (env : Env) (target : Option Nat) (h : Heap) (R : Nat → List Nat) (h' : Heap) : Prop :=
  h'.Small ∨ ¬Refused env → ∃ R', Sound h' R' ∧ Moved target h h' R R'

/-- The same where mmap buffers may be: the buffers are of the classes they
were, and new ones are trivial. -/
def Fills (env : Env) (target : Option Nat) (h : Heap) (R : Nat → List Nat) (h' : Heap) : Prop :=
  h'.Small ∨ ¬Refused env → ∃ R', Filled h' R' ∧ Moved target h h' R R' ∧
    ∀ c, (h'.buffers c).isSome → h'.kindOf c = h.kindOf c ∨ h'.IsTrivial c

section Fills

variable (f : Filled h R)

include f

theorem Filled.fills_inserts {len k : Nat} {Fails Inside AtEnd : Prop}
    {P : Nat → List UInt8 → Prop} {pre post : List UInt8} (hin : Inside)
    (hk : Inserts b h R len Fails P pre post Inside AtEnd k h') : Fills env (some b) h R h' := by
  obtain ⟨-, -, R', out, -, g⟩ := hk
  exact fun _ => ⟨R', f.grown g hin, Moved.of_frame g.frame g.stable,
    fun c _ => .inl (congrFun g.frame.kind c)⟩

theorem Filled.fills_transfers {src len k : Nat} {Fails Inside AtEnd : Prop}
    {pre post : List UInt8} (hin : Inside)
    (hk : Transfers env b src h R len Fails pre post Inside AtEnd k h') :
    Fills env (some b) h R h' := by
  intro hsmall
  obtain ⟨-, R', out, -, -, g⟩ := hk.2 hsmall
  exact ⟨R', f.grown g hin, Moved.of_frame g.frame g.stable,
    fun c _ => .inl (congrFun g.frame.kind c)⟩

theorem Filled.fills_removes {len k : Nat} {rejects : Bool} {keep : Nat → List UInt8}
    (hk : Removes b h R len rejects keep k h') : Fills env (some b) h R h' := by
  obtain ⟨-, -, R', c, st⟩ := hk
  exact fun _ => ⟨R', f.became c, Moved.of_frame c.frame st,
    fun e _ => .inl (congrFun c.frame.kind e)⟩

theorem Filled.fills_idle (i : Idle h h') (hm : h'.mem = h.mem) (hb : h'.buffers = h.buffers)
    (target : Option Nat) : Fills env target h R h' :=
  fun _ => ⟨R, f.idle i hm hb, Moved.of_quiet (Core.idle_quiet i hm hb _) target,
    fun c _ => .inl (congrFun i.kind c)⟩

end Fills

/-- **A correct call** does not fault, and leaves no page empty. -/
theorem exec_fills {op : Op} (f : Filled h R) (hf : h.Fits) (hv : op.Valid h) :
    Yields (exec env op) h (fun _ h' => Fills env op.target h R h') := by
  have hi := f.inv
  cases op with
  | create strategy =>
      refine Yields.bind (trivialBufferCreate_run env h strategy) ?_
      rintro (- | b) h' hpost
      · obtain ⟨-, i, hm, hb⟩ := hpost
        exact yields_pure.mpr (f.fills_idle i hm hb none)
      · refine yields_pure.mpr fun _ => ?_
        have hc := hi.core
        have hnb : ∀ {c}, (h.buffers c).isSome → c ≠ b := by
          rintro c hc' rfl
          simp [hpost.buffer_none hc.links] at hc'
        have u := hpost.untouched hc
        have hnil : R b = [] := hc.links.dead (hpost.buffer_none hc.links)
        have hfull : h'.Full (R b) := by
          intro p hp
          simp [hnil] at hp
        refine ⟨R, f.of_untouched ⟨hpost.core hc, hpost.totals hc hi.totals⟩ u hfull,
          ⟨u.world, fun _ => rfl, ?_, ?_, fun _ => .inl rfl⟩, ?_⟩
        · intro c hcb _
          exact ⟨u.buffer (hnb hcb), fun p hp => u.same (hnb hcb) hp⟩
        · intro c hcb hlt
          have hne : c ≠ b := by
            have := hpost.fresh
            omega
          rw [u.buffer hne] at hcb
          refine ⟨hcb, by rw [Heap.revOf, Heap.revOf, u.buffer hne], fun _ => ?_⟩
          exact ⟨List.prefix_refl _, fun p hp => u.same hne hp, id⟩
        · intro c _
          rcases eq_or_ne c b with rfl | hne
          · refine .inr ⟨newBuffer strategy, ?_, rfl⟩
            rw [hpost.buffers, update_self]
          · exact .inl (hpost.kindOf hne)
  | destroy b =>
      refine Yields.bind (trivialBufferDestroy_spec hi hf hv) ?_
      rintro _ h' ⟨hi', -, hnone, u⟩
      have hcb : ∀ {c}, some c ≠ Op.target (.destroy b) → c ≠ b :=
        fun hne he => hne (by rw [he]; rfl)
      have hleft : ∀ {c}, (h'.buffers c).isSome → c ≠ b := by
        rintro c hc rfl
        simp [hnone] at hc
      have hfull : h'.Full (update R b [] b) := by
        intro p hp
        simp at hp
      refine yields_pure.mpr fun _ => ⟨_, f.of_untouched hi' u hfull,
        ⟨u.world, fun hne => u.ring (hcb hne), ?_, ?_, ?_⟩, ?_⟩
      · intro c _ hne
        exact ⟨u.buffer (hcb hne), fun p hp => u.same (hcb hne) hp⟩
      · intro c hc _
        have hne := hleft hc
        rw [u.buffer hne] at hc
        refine ⟨hc, by rw [Heap.revOf, Heap.revOf, u.buffer hne], fun _ => ?_⟩
        rw [u.ring hne]
        exact ⟨List.prefix_refl _, fun p hp => u.same hne hp, id⟩
      · intro c hc
        rw [u.buffer (hleft hc)] at hc
        exact .inr hc
      · intro c hc
        exact .inl (by rw [Heap.kindOf, Heap.kindOf, u.buffer (hleft hc)])
  | writeData b buf =>
      obtain ⟨B, hB, hop⟩ := hv
      refine Yields.bind (trivialBufferWriteData_spec hi hB hop buf) ?_
      exact fun k h' hk => yields_pure.mpr (f.fills_inserts trivial hk)
  | writeDataRef b buf len =>
      obtain ⟨⟨B, hB, hop⟩, c, hbuf, -⟩ := hv
      refine Yields.bind (trivialBufferWriteDataRef_spec hi hB hop hbuf len) ?_
      exact fun k h' hk => yields_pure.mpr (f.fills_inserts trivial hk)
  | writeBuffer b src len =>
      obtain ⟨⟨B, hB, hop⟩, hsrc, hlen⟩ := hv
      refine Yields.bind (trivialBufferWriteBuffer_spec hi hB hop hsrc (f.full src) hlen) ?_
      exact fun k h' hk => yields_pure.mpr (f.fills_transfers trivial hk)
  | insertData b it offset buf =>
      obtain ⟨⟨B, hB, hop⟩, hp⟩ := hv
      obtain ⟨k₁, k₂, hR, hit, hin⟩ := hi.core.links.position (by rw [hB]; rfl) hp
      refine Yields.bind (trivialBufferInsertData_spec hi hB hop hR hit offset buf) ?_
      exact fun k h' hk => yields_pure.mpr (f.fills_inserts hin hk)
  | insertDataRef b it offset buf len =>
      obtain ⟨⟨B, hB, hop⟩, hp, c, hbuf, -⟩ := hv
      obtain ⟨k₁, k₂, hR, hit, hin⟩ := hi.core.links.position (by rw [hB]; rfl) hp
      refine Yields.bind (trivialBufferInsertDataRef_spec hi hB hop hR hit offset hbuf len) ?_
      exact fun k h' hk => yields_pure.mpr (f.fills_inserts hin hk)
  | insertBuffer b it offset src len =>
      obtain ⟨⟨B, hB, hop⟩, hsrc, hp, hlen⟩ := hv
      obtain ⟨k₁, k₂, hR, hit, hin⟩ := hi.core.links.position (by rw [hB]; rfl) hp
      refine Yields.bind (trivialBufferInsertBuffer_spec hi hB hop hsrc (f.full src) hR hit hlen
        (fun _ => hin)) ?_
      exact fun k h' hk => yields_pure.mpr (f.fills_transfers hin hk)
  | extend b len =>
      obtain ⟨B, hB, hop⟩ := hv
      refine Yields.bind (trivialBufferExtend_spec hi hB hop len) ?_
      exact fun k h' hk => yields_pure.mpr (f.fills_inserts trivial hk)
  | reserve b size =>
      obtain ⟨B, hB, hop⟩ := hv
      refine Yields.bind (trivialBufferReserve_spec hi hB hop size) ?_
      exact fun k h' hk => yields_pure.mpr (f.fills_inserts trivial hk)
  | rewind b len =>
      obtain ⟨B, hB, hop⟩ := hv
      refine Yields.bind (trivialBufferRewind_spec hi hB hop len) ?_
      exact fun k h' hk => yields_pure.mpr (f.fills_inserts trivial hk)
  | seek b len =>
      obtain ⟨B, hB, hop⟩ := hv
      refine Yields.bind (trivialBufferSeek_spec hi hf (f.full b) hB hop len) ?_
      exact fun k h' hk => yields_pure.mpr (f.fills_removes hk)
  | trim b len =>
      obtain ⟨B, hB, hop⟩ := hv
      refine Yields.bind (trivialBufferTrim_spec hi hf (f.full b) hB hop len) ?_
      exact fun k h' hk => yields_pure.mpr (f.fills_removes hk)
  | overwriteData b buf =>
      obtain ⟨B, hB, hop⟩ := hv
      refine Yields.bind (trivialBufferOverwriteData_spec hi hf (f.full b) hB hop buf) ?_
      rintro k h' ⟨-, -, c, st⟩
      exact yields_pure.mpr fun _ => ⟨R, f.became c, Moved.of_frame c.frame st,
        fun e _ => .inl (congrFun c.frame.kind e)⟩
  | readData b len =>
      refine Yields.bind (trivialBufferReadData_spec hi.core.links hv len) ?_
      rintro bs h' ⟨-, o, rfl⟩
      have i : Idle h { h with overread := o } := { Idle.refl h with }
      exact yields_pure.mpr (f.fills_idle i rfl rfl (some b))
  | clear b =>
      refine Yields.bind (trivialBufferClear_spec hi hf hv) ?_
      rintro _ h' c
      refine yields_pure.mpr fun _ => ⟨_, f.became c, Moved.of_frame c.frame fun he => ?_,
        fun e _ => .inl (congrFun c.frame.kind e)⟩
      have := c.revision
      omega

/-- A correct call of a client of trivial buffers leads to a sound state. -/
theorem exec_leads {op : Op} (s : Sound h R) (hs : h.Small) (hv : op.Valid h) :
    Yields (exec env op) h (fun _ h' => Leads env op.target h R h') := by
  refine (exec_fills s.filled (s.fits hs) hv).mono fun _ h' hk hsmall => ?_
  obtain ⟨R', f, m, -⟩ := hk hsmall
  exact ⟨R', s.of_filled f m.world, m⟩

/-! ## Runs -/

theorem sound_initial (mem : Region → Nat → UInt8) (callerLen : Nat → Nat)
    (files : Nat → List UInt8) : Sound (Heap.initial mem callerLen files) (fun _ => []) where
  inv :=
    { core :=
        { links :=
            { ring := fun hb => by simp [Heap.initial] at hb
              dead := fun _ => rfl
              disj := fun hp => by simp at hp
              page := fun hp => by simp at hp
              flight := List.nodup_nil
              apart := fun hp => by simp at hp
              live := fun p => by simp [Heap.initial]
              fresh := fun hp => by simp [Heap.initial] at hp }
          views :=
            { data := fun hp => by simp [Heap.initial] at hp
              sentinel := fun hb => by simp [Heap.initial] at hb
              region := fun hd => by simp [Heap.initial, Heap.dataOf] at hd }
          objs :=
            { live := fun d => by
                simp [Heap.initial, Heap.shapeOf, Heap.count, Heap.refs, holders]
              count := fun hD => by simp [Heap.initial] at hD
              owned := fun hs => by simp [Heap.initial, Heap.shapeOf] at hs
              referenced := fun hs => by simp [Heap.initial, Heap.shapeOf] at hs
              owner := fun hn => by simp [Heap.initial] at hn
              excl := fun hs => by simp [Heap.initial, Heap.shapeOf] at hs
              freshData := fun hd => by simp [Heap.initial, Heap.shapeOf] at hd
              freshBlock := fun hn => by simp [Heap.initial] at hn }
          allocs :=
            { mapped := fun hs => by simp [Heap.initial, Heap.shapeOf] at hs
              tree := fun hA => by simp [Heap.initial] at hA
              count := fun hA => by simp [Heap.initial] at hA
              live := fun a => by simp [Heap.initial, Heap.allocRefs, holders]
              freshMapping := fun hm => by simp [Heap.initial] at hm }
          writable := fun _ _ _ hp => by simp at hp }
      totals := fun _ _ hB => by simp [Heap.initial] at hB }
  full := fun _ _ hp => by simp at hp
  plain := fun _ => rfl

theorem Call.leads {op : Op} {r : Ret} (c : Call env op r h h') (s : Sound h R) :
    ∃ R', Sound h' R' ∧ Moved op.target h h' R R' :=
  (exec_leads s c.small c.valid).of_run c.run (.inl c.small')

/-- **Every state a client can bring about is sound.** -/
theorem Reachable.sound (hr : Reachable env h) : ∃ R, Sound h R := by
  obtain ⟨mem, callerLen, files, hr⟩ := hr
  induction hr with
  | refl => exact ⟨_, sound_initial mem callerLen files⟩
  | tail _ hstep ih =>
      obtain ⟨R, s⟩ := ih
      obtain ⟨op, r, c⟩ := hstep
      obtain ⟨R', s', -⟩ := c.leads s
      exact ⟨R', s'⟩

/-- No `pb_data` of a reachable state has too many users. -/
theorem Reachable.small (hr : Reachable env h) : h.Small := by
  obtain ⟨mem, callerLen, files, hr⟩ := hr
  cases hr with
  | refl =>
      intro d
      exact Nat.zero_le _
  | tail _ hstep =>
      obtain ⟨op, r, c⟩ := hstep
      exact c.small'

theorem Reachable.run (hr : Reachable env h) (hrun : Relation.ReflTransGen (Step env) h h') :
    Reachable env h' := by
  obtain ⟨mem, callerLen, files, hr⟩ := hr
  exact ⟨mem, callerLen, files, hr.trans hrun⟩

theorem Reachable.call {op : Op} {r : Ret} (hr : Reachable env h) (c : Call env op r h h') :
    Reachable env h' :=
  hr.run (.single ⟨op, r, c⟩)

/-- What one call moves, a whole run moves; the target does not matter for
what is compared over runs. -/
theorem Sound.run (s : Sound h R) (hrun : Relation.ReflTransGen (Step env) h h') :
    ∃ R', Sound h' R' ∧ World h h' ∧ ∀ {c}, (h'.buffers c).isSome → c < h.next →
      (h.buffers c).isSome ∧ h.revOf c ≤ h'.revOf c ∧ Stable c h h' R R' := by
  induction hrun with
  | refl =>
      exact ⟨R, s, World.refl h, fun hc _ => ⟨hc, Nat.le_refl _, Stable.refl _ h R⟩⟩
  | tail _ hstep ih =>
      obtain ⟨R₁, s₁, w₁, hstable₁⟩ := ih
      obtain ⟨op, r, c⟩ := hstep
      obtain ⟨R₂, s₂, m⟩ := c.leads s₁
      refine ⟨R₂, s₂, w₁.trans m.world, fun {c} hc hlt => ?_⟩
      obtain ⟨hc₁, hle₂, st₂⟩ := m.stable hc (Nat.lt_of_lt_of_le hlt w₁.next)
      obtain ⟨hc₀, hle₁, st₁⟩ := hstable₁ hc₁ hlt
      refine ⟨hc₀, Nat.le_trans hle₁ hle₂, fun heq => ?_⟩
      obtain ⟨hpre₁, hsame₁, hnil₁⟩ := st₁ (by omega)
      obtain ⟨hpre₂, hsame₂, hnil₂⟩ := st₂ (by omega)
      exact ⟨hpre₁.trans hpre₂, fun p hp => (hsame₁ p hp).trans (hsame₂ p (hpre₁.subset hp)),
        fun hnil => hnil₂ (hnil₁ hnil)⟩

/-! ## New buffers -/

/-- The state after a creation that was granted both of its requests. -/
def Heap.withBuffer (h : Heap) (strategy : Strategy) : Heap :=
  (h.granted.granted.setPage (h.next + 1)
    (some { prev := some (h.next + 1), next := some (h.next + 1) })).setBuffer (h.next + 1)
      (some { strategy := strategy, operations := .trivial })

theorem exec_create_run (hg : ∀ k, env.grants k = true) (h : Heap) (strategy : Strategy) :
    exec env (.create strategy) h = .ok (.buffer (some (h.next + 1)), h.withBuffer strategy) := by
  have hcreate : trivialBufferCreate env strategy h
      = .ok (some (h.next + 1), h.withBuffer strategy) := by
    unfold trivialBufferCreate
    refine (bind_run (request_granted (hg _))).trans ?_
    exact (bind_run (request_granted (hg _))).trans rfl
  exact (bind_run hcreate).trans rfl

/-- Creating a buffer is a correct call in every reachable state. -/
theorem Reachable.create (hr : Reachable env h) (hg : ∀ k, env.grants k = true)
    (strategy : Strategy) :
    Call env (.create strategy) (.buffer (some (h.next + 1))) h (h.withBuffer strategy) where
  valid := trivial
  small := hr.small
  run := exec_create_run hg h strategy
  small' := by
    obtain ⟨R, s⟩ := hr.sound
    have ab : AddBuffer h (h.withBuffer strategy) (h.next + 1) strategy :=
      ⟨Nat.le_succ _, Nat.lt_succ_self _, h.next + 1 + 1, h.calls + 1 + 1, rfl⟩
    exact (ab.fits s.inv.core (s.fits hr.small)).small

theorem Reachable.withBuffer (hr : Reachable env h) (hg : ∀ k, env.grants k = true)
    (strategy : Strategy) : Reachable env (h.withBuffer strategy) :=
  hr.call (hr.create hg strategy)

/-- Surroundings that grant every request. -/
def Env.generous : Env := ⟨fun _ => true, fun _ => true, fun _ n => n⟩

/-- Nothing but memory and files of the caller, all zero or empty. -/
def Heap.blank : Heap := Heap.initial (fun _ _ => 0) (fun _ => 8) (fun _ => [])

theorem reachable_blank : Reachable env .blank := ⟨_, _, _, .refl⟩

/-- Two new buffers, under the addresses 1 and 3. -/
def Heap.twoBuffers (strategy strategy' : Strategy) : Heap :=
  (Heap.blank.withBuffer strategy).withBuffer strategy'

theorem reachable_twoBuffers (strategy strategy' : Strategy) :
    Reachable Env.generous (Heap.twoBuffers strategy strategy') :=
  (reachable_blank.withBuffer (fun _ => rfl) strategy).withBuffer (fun _ => rfl) strategy'

theorem isTrivial_twoBuffers (strategy strategy' : Strategy) :
    (Heap.twoBuffers strategy strategy').IsTrivial 1 ∧
      (Heap.twoBuffers strategy strategy').IsTrivial 3 :=
  ⟨⟨_, rfl, rfl⟩, ⟨_, rfl, rfl⟩⟩

/-! ## Running calls -/

/-- The state after a call, if it returns. -/
def Heap.after (h : Heap) (env : Env) (op : Op) : Heap :=
  match exec env op h with
  | .ok (_, h') => h'
  | .error _ => h

/-- The answer of a call, if it returns. -/
def Heap.answer (h : Heap) (env : Env) (op : Op) : Option Ret :=
  match exec env op h with
  | .ok (r, _) => some r
  | .error _ => none

/-- No more users than addresses. -/
theorem small_of_next (hn : h.next ≤ 65535) : h.Small :=
  fun d => Nat.le_trans (holders_le h.next h.dataOf d) hn

theorem fits_of_next (hn : h.next ≤ 32767) : h.Fits where
  small := small_of_next (by omega)
  allocs := fun a => by
    have hdatas := holders_le h.next h.allocatorOf a
    have hbuffers := holders_le h.next h.bufferAllocatorOf a
    unfold Heap.allocRefs
    omega

theorem call_after {op : Op} {r : Ret} (hs : h.Small) (hv : op.Valid h)
    (ha : h.answer env op = some r) (hn : (h.after env op).next ≤ 65535) :
    Call env op r h (h.after env op) := by
  refine ⟨hv, hs, ?_, small_of_next hn⟩
  unfold Heap.answer at ha
  unfold Heap.after
  cases hrun : exec env op h with
  | error f => simp [hrun] at ha
  | ok q =>
      obtain ⟨r', h'⟩ := q
      rw [hrun] at ha
      cases ha
      rfl

theorem Reachable.after {op : Op} (hr : Reachable env h) (hv : op.Valid h)
    (ha : (h.answer env op).isSome) (hn : (h.after env op).next ≤ 65535) :
    Reachable env (h.after env op) := by
  obtain ⟨r, hr'⟩ := Option.isSome_iff_exists.mp ha
  exact hr.call (call_after hr.small hv hr' hn)

end Pb
