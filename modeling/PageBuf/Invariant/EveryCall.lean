import PageBuf.Invariant.Calls
import PageBuf.Invariant.PageCalls

/-!
# EveryCall — `overwrite_buffer` among the calls

A copy of `overwrite_buffer` may run over the end of its page. While it stays
in the block it meets no byte of another page, and a copy that leaves the block
does not return. So this call, if it returns, keeps the invariant as well, and
leaves the other buffers alone.
-/

namespace Pb

open StateRun Function Ring

variable {env : Env} {h h' h'' : Heap} {R R' : Nat → List Nat} {b src c x n k len : Nat}

/-! ## The loop of `overwrite_buffer` -/

/-- **A store into the block of a lone page** changes no other page, wherever
in the block it goes. -/
theorem Lone.store_in (lo : Lone h x n) {q : Ptr} (bs : List UInt8) (hq : q.region = .heap n) :
    Idle h (h.store q bs) ∧ Quiet (fun p => p ≠ x) h (h.store q bs) := by
  have i : Idle h (h.store q bs) := Idle.store hq
  exact ⟨i, i.world, by rw [Heap.store_eq (by simp [hq])],
    fun {p} hp => Same.store hq (lo.alone p hp)⟩

theorem returns_memWrite_store (q : Ptr) (bs : List UInt8) :
    Returns (memWrite q bs) h (fun _ h' => h' = h.store q bs) := by
  intro u h' hrun
  unfold memWrite at hrun
  split at hrun
  · cases hrun
    rfl
  · cases hrun

section Loop

variable (ht : h.IsTrivial b) (hsrc : h.IsTrivial src) (hfull : ∀ c, h.Full (R c))

include ht hsrc hfull

/-- **One round** stays in the block of its page. -/
theorem rewriting_round {s : OverwriteBufferLoop} (t : Rewriting b h R s.written h')
    (hit : s.it ∈ b :: R b) (hsit : s.srcIt ∈ src :: R src) :
    Returns (overwriteBufferRound env b src s) h' (fun r h'' =>
      match r with
      | .inl s' => Rewriting b h R s'.written h'' ∧ s'.it ∈ b :: R b ∧ s'.srcIt ∈ src :: R src
      | .inr k => Rewriting b h R k h'') := by
  unfold overwriteBufferRound bufferIsEndIterator trivialBufferIsEndIterator
  split
  · exact Returns.pure t
  · next hcond =>
      simp only [Bool.or_eq_true, decide_eq_true_eq, not_or] at hcond
      obtain ⟨⟨hlen, hne⟩, hsne⟩ := hcond
      have hx := (List.mem_cons.mp hit).resolve_left hne
      have hy := (List.mem_cons.mp hsit).resolve_left hsne
      obtain ⟨B', hB', hop'⟩ := ht.congr t.frame.kind
      refine Returns.bind (ensureWritable_spec t.core t.fits hB' hop' hx).returns ?_
      intro r h₁ hw
      cases r with
      | false =>
          exact Returns.pure (t.wrote hx hw.core hw.fits hw.quiet hw.len
            fun hz => ⟨hz, (hw.failed rfl).2⟩)
      | true =>
          obtain ⟨n, lo⟩ := hw.lone rfl
          have t₁ : Rewriting b h R 1 h₁ :=
            t.wrote hx hw.core hw.fits hw.quiet hw.len fun hz => absurd hz (by omega)
          -- no page is empty, so there is something to write
          have hxpos := hfull b s.it hx
          have hypos := hfull src s.srcIt hy
          refine returns_pageGetLen fun _ => returns_pageGetLen fun _ => ?_
          rw [t₁.lenOf hx, t₁.lenOf hy]
          have hpos : overwriteLen (h.lenOf s.it) (h.lenOf s.srcIt) s.len ≠ 0 := by
            unfold overwriteLen
            dsimp only
            split <;> split <;> omega
          dsimp only
          rw [if_neg hpos]
          generalize overwriteLen (h.lenOf s.it) (h.lenOf s.srcIt) s.len = m at hpos ⊢
          refine returns_pageGetBase fun q => Returns.step (memRead_run _ _) ?_
          generalize (h₁.overread || !h₁.inBounds (q.add s.srcOffset) m) = flag
          -- the page lies in a block of its own, and the store with it
          have i₂ : Idle h₁ { h₁ with overread := flag } := { Idle.refl h₁ with }
          have t₂ : Rewriting b h R 1 { h₁ with overread := flag } :=
            t₁.wrote hx (t₁.core.idle i₂) (t₁.fits.idle t₁.core i₂) (Core.idle_quiet i₂ rfl rfl _)
              rfl fun hz => absurd hz (by omega)
          have lo₂ : Lone { h₁ with overread := flag } s.it n := ⟨lo.region, lo.inBounds, lo.alone⟩
          have hlive : (Heap.pages { h₁ with overread := flag } s.it).isSome :=
            t₂.core.links.node_live ((ht.congr t₂.frame.kind).isSome) hit
          refine Returns.step (pageGetBase_run hlive) ?_
          refine Returns.bind (returns_memWrite_store _ _) ?_
          rintro _ _ rfl
          have hto : ((Heap.vecOf { h₁ with overread := flag } s.it).base.add s.offset).region
              = .heap n := lo₂.region
          obtain ⟨i₃, q₃⟩ := lo₂.store_in (h₁.bytes (q.add s.srcOffset) m) hto
          have t₃ := t₂.wrote (m := s.written + m) hx (t₂.core.idle i₃) (t₂.fits.idle t₂.core i₃)
            q₃ (congrFun (Heap.lenOf_congr i₃.pages) s.it) fun hz => absurd hz (by omega)
          have hl₃ := t₃.core.links
          refine Returns.bind (returns_stepWhenFull hl₃ (ht.congr t₃.frame.kind) hx) ?_
          rintro ⟨it', off'⟩ _ ⟨rfl, hit'⟩
          refine Returns.bind (returns_stepWhenFull hl₃ (hsrc.congr t₃.frame.kind) hy) ?_
          rintro ⟨sit', soff'⟩ _ ⟨rfl, hsit'⟩
          exact Returns.pure ⟨t₃, hit', hsit'⟩

/-- **`pb_trivial_buffer_overwrite_buffer`**, wherever it writes, changes only
the bytes of `b`. -/
theorem returns_rewriting (hi : Inv h R) (hf : h.Fits) (len : Nat) :
    Returns (trivialBufferOverwriteBuffer env b src len) h (fun _ h' =>
      ∃ r out, Became b h h' R R r out ∧ Stable b h h' R R) := by
  unfold trivialBufferOverwriteBuffer
  refine returns_getBuffer fun B _ => ?_
  split
  · exact Returns.pure ⟨0, _, Became.refl hi b, Stable.refl b h R⟩
  · refine Returns.step (bufferGetIterator_run ht hi.core.links) ?_
    refine Returns.step (bufferGetIterator_run hsrc hi.core.links) ?_
    refine Returns.bind (P := fun k h' => Rewriting b h R k h') ?_ ?_
    · refine Returns.loop (I := fun s h' => Rewriting b h R s.written h' ∧
        s.it ∈ b :: R b ∧ s.srcIt ∈ src :: R src) ?_ _ _ _
        ⟨.start hi.core hf, headD_mem b (R b), headD_mem src (R src)⟩
      intro s h₁ hI
      obtain ⟨t, hit, hsit⟩ := hI
      refine (rewriting_round ht hsrc hfull t hit hsit).mono ?_
      intro r h₂ hr
      cases r <;> exact hr
    · intro k h₁ t
      refine (t.finish hi ht.isSome).returns.mono ?_
      rintro n h₂ ⟨-, hbecame, hstable⟩
      exact ⟨_, _, hbecame, hstable⟩

end Loop

/-! ## The calls -/

/-- A correct call, or `pb_buffer_overwrite_buffer` on any two trivial
buffers. -/
inductive EveryCall (env : Env) (h h' : Heap) : Prop where
  | call {op : Op} {r : Ret} (c : Call env op r h h')
  | overwriteBuffer {b src len k : Nat} (small : h.Small) (target : h.IsTrivial b)
      (source : h.IsTrivial src) (size : len < 2 ^ 64)
      (run : trivialBufferOverwriteBuffer env b src len h = .ok (k, h'))

/-- **Every call** keeps the invariant. -/
theorem EveryCall.leads (c : EveryCall env h h') (s : Sound h R) :
    h'.Small ∧ ∃ R' target, Sound h' R' ∧ Moved target h h' R R' := by
  cases c with
  | call c =>
      obtain ⟨R', s', m⟩ := c.leads s
      exact ⟨c.small', R', _, s', m⟩
  | @overwriteBuffer b src len k small target source size run =>
      have hf := s.fits small
      obtain ⟨r, out, hbecame, hstable⟩ :=
        returns_rewriting target source s.full s.inv hf len k h' run
      exact ⟨(hbecame.fits hf).small, R, some b, s.became hbecame,
        .of_frame hbecame.frame hstable⟩

/-- The states that all the calls on trivial buffers bring about. -/
def EveryReachable (env : Env) (h : Heap) : Prop :=
  ∃ mem callerLen files,
    Relation.ReflTransGen (EveryCall env) (Heap.initial mem callerLen files) h

theorem EveryReachable.sound (hr : EveryReachable env h) : h.Small ∧ ∃ R, Sound h R := by
  obtain ⟨mem, callerLen, files, hr⟩ := hr
  induction hr with
  | refl => exact ⟨fun d => Nat.zero_le _, _, sound_initial mem callerLen files⟩
  | tail _ hstep ih =>
      obtain ⟨-, R, s⟩ := ih
      obtain ⟨hsmall, R', -, s', -⟩ := hstep.leads s
      exact ⟨hsmall, R', s'⟩

theorem Reachable.every (hr : Reachable env h) : EveryReachable env h := by
  obtain ⟨mem, callerLen, files, hr⟩ := hr
  refine ⟨mem, callerLen, files, ?_⟩
  induction hr with
  | refl => exact .refl
  | tail _ hstep ih =>
      obtain ⟨op, r, c⟩ := hstep
      exact ih.tail (.call c)

end Pb
