import PageBuf.Client.Transfers

/-!
# SelfAppend — a buffer written to itself

Where source and target of `write_buffer` are one buffer, the loop walks the
ring it appends to. The next bytes it takes are those of the content behind
the ones it has taken, and these are in the ring before it comes to its end: a
buffer that has bytes never runs out of them.
-/

namespace Pb

open StateRun Function Ring

variable {env : Env} {h h' : Heap} {R R' : Nat → List Nat} {m₁ m₂ l₂ : List Nat}
  {b len k : Nat} {B : Buffer} {alg : TransferAlgorithm} {Start : Nat → Prop}
  {s : TransferLoop} {out : List UInt8}

/-! ## The loop -/

/-- The loop after some rounds: the source iterator stands behind `m₁`, and
what has been appended is the first part of what the content is now. -/
structure SelfReading (Start : Nat → Prop) (b : Nat) (old : List UInt8) (s : TransferLoop)
    (h' : Heap) (R' : Nat → List Nat) (m₁ m₂ : List Nat) (out : List UInt8) : Prop where
  empty : old = [] → s.inserted = 0
  copied : out = (h'.flat (R' b)).take s.inserted
  reading : s.len ≠ 0 → Start s.srcOffset ∧ (h'.flat m₁).length + s.srcOffset = s.inserted ∧
    (m₂ ≠ [] → s.srcOffset < h'.lenOf s.srcIt) ∧ (m₂ = [] → s.srcOffset = 0)

/-- What the loop returns: nothing from an empty buffer, else all of the
length. -/
def selfAppended (old : List UInt8) (len : Nat) : Nat := if old = [] then 0 else len

/-- The appended bytes are the first ones of the content with them. -/
structure SelfAppends (b len : Nat) (h h' : Heap) (R : Nat → List Nat) (k : Nat) : Prop where
  count : k = selfAppended (h.flat (R b)) len
  content : ∃ R' out, Inv h' R' ∧ h'.kindOf = h.kindOf ∧ out.length = k ∧
    h'.flat (R' b) = h.flat (R b) ++ out ∧ out = (h'.flat (R' b)).take k

theorem selfAppendLoop_spec (law : CutLaw alg Start) (hi : Inv h R) (htriv : h.IsTrivial b)
    (hlen : len < 2 ^ 64) (hfull : h.Full (R b)) (hmake : MakesTransfer env h b alg)
    (hno : ¬Refused env) :
    Yields (insertBufferLoop env alg b b 0 b len) h
      (fun k h' => SelfAppends b len h h' R k) := by
  have hpre : h.before (R b) [] b 0 = h.flat (R b) := by simp [Heap.before]
  have hpost : h.behind [] b 0 = [] := rfl
  unfold insertBufferLoop
  refine Yields.step (bufferGetIterator_run htriv hi.core.links) ?_
  have hinit : TransferInv Start b b b 0 len h R (R b) [] ⟨0, len, 0, (R b).headD b, 0⟩ h R
      (R b) [] [] (R b) [] :=
    TransferInv.init law hi (by simp) rfl hfull
  refine Yields.loop
    (I := fun n s h' => n = s.len ∧ ∃ R' l₁ l₂ m₁ m₂ out,
      TransferInv Start b b b 0 len h R (R b) [] s h' R' l₁ l₂ m₁ m₂ out ∧
        SelfReading Start b (h.flat (R b)) s h' R' m₁ m₂ out)
    ?_ _ len _ _ ⟨rfl, R, R b, [], [], R b, [], hinit, ⟨fun _ => rfl, by simp, fun _ => ?_⟩⟩
    (Nat.lt_succ_self _)
  rotate_left
  · refine ⟨law.zero, rfl, fun hne => hfull _ (headD_mem_of_ne_nil b hne), fun _ => rfl⟩
  intro n s h' hinv
  obtain ⟨rfl, R', l₁, l₂, m₁, m₂, out, t, hread⟩ := hinv
  have hsum := t.sum
  have hl := t.grown.core.links
  have htriv' := htriv.congr t.grown.frame.kind
  have hb := htriv'.isSome
  have hcontent : h'.flat (R' b) = h.flat (R b) ++ out := by
    rw [t.grown.content, hpre, hpost, List.append_nil]
  have hend : s.srcIt = b ↔ m₂ = [] := by
    rw [t.srcIt]
    exact hl.headD_eq_iff hb t.source
  have hfull' : h'.Full (R' b) := t.grown.full hfull fun hne => absurd rfl hne
  by_cases hz : s.len = 0 ∨ m₂ = []
  · unfold insertBufferRound bufferIsEndIterator trivialBufferIsEndIterator
    rw [if_pos (by simpa [hend] using hz)]
    refine yields_pure.mpr ⟨?_, R', out, ⟨t.grown.core, t.grown.totals⟩, t.grown.frame.kind,
      t.length, hcontent, hread.copied⟩
    by_cases hold : h.flat (R b) = []
    · rw [selfAppended, if_pos hold]
      exact hread.empty hold
    · rw [selfAppended, if_neg hold]
      -- at the end of the ring there would be as many bytes as have been appended
      have hzero : s.len = 0 := by
        by_contra hne
        obtain ⟨-, hat, -, h0⟩ := hread.reading hne
        have hm₂ := hz.resolve_left hne
        have hoff := h0 hm₂
        have hring := t.source
        rw [hm₂, List.append_nil] at hring
        have hsize := congrArg List.length hcontent
        rw [hring, List.length_append, t.length] at hsize
        exact hold (List.eq_nil_of_length_eq_zero (by omega))
      omega
  · rw [not_or] at hz
    obtain ⟨hl0, hm₂⟩ := hz
    obtain ⟨hstart, hat, hlt, -⟩ := hread.reading hl0
    have hoff := hlt hm₂
    obtain ⟨m₃, rfl⟩ := exists_cons_of_headD t.srcIt hm₂
    obtain ⟨B, hB, hop⟩ := htriv'
    have hspR : s.srcIt ∈ R' b := by simp [t.source]
    have hplive := hl.node_live hb (List.mem_cons_of_mem b hspR)
    have hpdata := t.grown.core.views.data hplive (hl.page hspR)
    have hbounds : 0 < alg.cut B.strategy.pageSize (h'.lenOf s.srcIt) s.srcOffset s.len ∧
        alg.cut B.strategy.pageSize (h'.lenOf s.srcIt) s.srcOffset s.len ≤ s.len :=
      law.bounds (hfull' s.srcIt hspR) (Nat.pos_of_ne_zero hl0) (Nat.ne_of_lt hoff) (by have := t.srcOffset; omega)
    have hfits : s.srcOffset + alg.cut B.strategy.pageSize (h'.lenOf s.srcIt) s.srcOffset s.len
        ≤ h'.lenOf s.srcIt := law.fits hoff hstart
    generalize hn : alg.cut B.strategy.pageSize (h'.lenOf s.srcIt) s.srcOffset s.len = n
      at hbounds hfits
    refine (insertBufferRound_spec t.grown.core t.grown.totals hB hop t.target t.place ⟨B, hB, hop⟩
      t.source hl0 hn.symm hbounds.1
      (hmake h' R' s.srcIt n s.srcOffset t.grown.core t.grown.frame.kind hplive hpdata)).mono ?_
    intro r h'' hpost
    rcases hpost with ⟨-, hr, -⟩ | ⟨x, bs, n₁, n₂, j₁, j₂, i, hbs, hbytes, hj, -, hmove⟩
    · exact absurd hr hno
    · -- the page is behind all others, so the iterator has the same pages before it
      obtain ⟨rfl, rfl, hsame⟩ := i.append rfl
      have hj' : R' b ++ [x] = j₁ ++ s.srcIt :: j₂ := by rw [← hj, update_self]
      have hnd : (R' b ++ [x]).Nodup := by
        have hnd := i.core.links.nodup (b := b) (by rwa [Heap.buffers_isSome_congr i.frame.kind])
        rwa [update_self] at hnd
      have hcut : R' b ++ [x] = m₁ ++ s.srcIt :: (m₃ ++ [x]) := by rw [t.source]; simp
      obtain ⟨rfl, rfl⟩ := cut_unique (hcut ▸ hnd) (hcut.symm.trans hj')
      have hflat : h''.flat (R' b ++ [x]) = h'.flat (R' b) ++ bs := by
        rw [Heap.flat_append, flat_of_same hsame, Heap.flat_cons, Heap.flat_nil, List.append_nil,
          i.bytes]
      have hflat₁ : h''.flat m₁ = h'.flat m₁ :=
        flat_of_same fun p hp => hsame p (by rw [t.source]; exact List.mem_append_left _ hp)
      have hlen' : h''.lenOf s.srcIt = h'.lenOf s.srcIt := (hsame s.srcIt hspR).len
      have hsize : s.inserted + n ≤ (h'.flat (R' b)).length := by
        rw [t.source, Heap.flat_append, Heap.flat_cons, List.length_append, List.length_append,
          Heap.length_pageBytes]
        omega
      have hcopied : out ++ bs = (h''.flat (update R' b (R' b ++ [x]) b)).take (s.inserted + n) := by
        have htake := (@take_flat_add _ m₁ m₃) hfits (hbytes hfits)
        rw [← t.source, hat, ← hread.copied] at htake
        rw [update_self, hflat, List.take_append_of_le_length hsize]
        exact htake
      have hempty : h.flat (R b) = [] → s.inserted + n = 0 := by
        intro hnil
        rw [hcontent, hnil, List.nil_append, t.length] at hsize
        omega
      have hfull'' : h''.Full (update R' b (R' b ++ [x]) b) :=
        t.full_source i hB hbounds.1 hbs hfull fun _ hne => absurd rfl hne
      have hnone : ∀ {P : Prop}, b ≠ b → P := fun hne => absurd rfl hne
      rcases hmove with ⟨rfl, hlast⟩ | ⟨rfl, -, hlast⟩
      · have hpage : s.len - n ≠ 0 → s.srcOffset + n = h'.lenOf s.srcIt := by
          intro hl'
          rcases hlast with ha | he
          · rw [← hn] at hl' ⊢
            exact law.whole hoff hstart ha hl'
          · rw [he, hlen']
        have hahead : 0 < h''.lenOf ((m₃ ++ [x]).headD b) := by
          refine hfull'' _ ?_
          rw [hj]
          exact List.mem_append_right m₁
            (List.mem_cons_of_mem s.srcIt (headD_mem_of_ne_nil b (by simp)))
        refine ⟨s.len - n, by omega, rfl, _, _, [], m₁ ++ [s.srcIt], m₃ ++ [x], out ++ bs,
          t.step (by simp) hB i hbs hbounds.1 hbounds.2 hnone (by simp [hj'])
            (fun _ => Nat.ne_of_lt hahead) (Nat.zero_le _) hnone,
          hempty, hcopied, fun hl' => ⟨law.zero, ?_, fun _ => hahead, fun hnil => ?_⟩⟩
        · have hp := hpage hl'
          rw [Heap.flat_append, hflat₁, Heap.flat_cons, Heap.flat_nil, List.append_nil,
            List.length_append, Heap.length_pageBytes, hlen']
          dsimp only
          omega
        · simp at hnil
      · have hlt' : s.srcOffset + n < h''.lenOf s.srcIt := by omega
        refine ⟨s.len - n, by omega, rfl, _, _, [], m₁, s.srcIt :: (m₃ ++ [x]), out ++ bs,
          t.step (by simp) hB i hbs hbounds.1 hbounds.2 hnone hj
            (fun _ => Nat.ne_of_lt hlt') (by have := t.srcOffset; omega) hnone,
          hempty, hcopied, fun hl' => ⟨?_, ?_, fun _ => hlt', fun hnil => ?_⟩⟩
        · rw [hlen', ← hn] at hlast
          rw [← hn] at hl' ⊢
          exact law.next hoff hstart hlast hl'
        · rw [hflat₁]
          dsimp only
          omega
        · simp at hnil

/-! ## The law -/

/-- `write_buffer` with the buffer itself appends what was in it before, as far
as the length goes. -/
def SelfAppendLaw (env : Env) (b len : Nat) (h : Heap) : Prop :=
  Yields (trivialBufferWriteBuffer env b b len) h (fun n h' =>
    n = min len (h.content b).length ∧ h'.content b = h.content b ++ (h.content b).take n)

/-- **Whatever the algorithm**, a buffer that has bytes takes all of the length
from itself. -/
theorem selfAppend_spec (hi : Inv h R) (hB : h.buffers b = some B) (hop : B.operations = .trivial)
    (hfull : h.Full (R b)) (hrej : B.strategy.rejectsWrite = false) (hlen : len < 2 ^ 64)
    (hno : ¬Refused env) :
    Yields (trivialBufferWriteBuffer env b b len) h
      (fun k h' => SelfAppends b len h h' R k) := by
  obtain ⟨Start, law⟩ := transferAlgorithm_law env b B.strategy
  unfold trivialBufferWriteBuffer
  refine Yields.step (getBuffer_run hB) ?_
  rw [if_neg (by simp [hrej])]
  refine Yields.pure_bind ?_
  exact selfAppendLoop_spec law hi ⟨B, hB, hop⟩ hlen hfull (transferAlgorithm_makes hB hop) hno

/-- **The law holds exactly** where the length is not beyond what the buffer
has. -/
theorem selfAppend_law_iff (hw : h.WellFormed) (hB : h.buffers b = some B)
    (hop : B.operations = .trivial) (hfull : h.Full (h.pagesOf b))
    (hrej : B.strategy.rejectsWrite = false) (hlen : len < 2 ^ 64)
    (hg : ∀ k, env.grants k = true) :
    SelfAppendLaw env b len h ↔ len ≤ (h.content b).length ∨ h.content b = [] := by
  obtain ⟨R, hi⟩ := hw
  have hb : (h.buffers b).isSome := by rw [hB]; rfl
  have hl := hi.core.links
  rw [hl.pagesOf hb] at hfull
  have hno : ¬Refused env := by
    rintro ⟨k, hk⟩
    simp [hg k] at hk
  have hspec := selfAppend_spec hi hB hop hfull hrej hlen hno
  rw [SelfAppendLaw, hl.content hb]
  constructor
  · intro hlaw
    obtain ⟨n, h', -, ⟨hn, -⟩, hk⟩ := hlaw.and hspec
    have hcount := hk.count
    rw [selfAppended] at hcount
    by_cases hold : h.flat (R b) = []
    · exact .inr hold
    · rw [if_neg hold] at hcount
      exact .inl (by omega)
  · intro hcond
    refine hspec.mono fun n h' hk => ?_
    obtain ⟨R', out, hi', hkind, hlen', hcontent, hout⟩ := hk.content
    have hb' : (h'.buffers b).isSome := by rwa [Heap.buffers_isSome_congr hkind]
    have hcount := hk.count
    rw [selfAppended] at hcount
    have hn : n = min len (h.flat (R b)).length := by
      by_cases hold : h.flat (R b) = []
      · rw [if_pos hold] at hcount
        rw [hold, List.length_nil]
        omega
      · rw [if_neg hold] at hcount
        have hle := hcond.resolve_right hold
        omega
    refine ⟨hn, ?_⟩
    rw [hi'.core.links.content hb', hcontent]
    congr 1
    rw [hout, hcontent, List.take_append_of_le_length (by omega)]

theorem selfAppend_law_iff_oneByte :
    SelfAppendLaw .generous 1 1 (.oneByte .generous trivialBufferStrategy) ↔
      1 ≤ ((Heap.oneByte .generous trivialBufferStrategy).content 1).length ∨
        (Heap.oneByte .generous trivialBufferStrategy).content 1 = [] :=
  selfAppend_law_iff
    (Reachable.wellFormed
      (Reachable.after (Reachable.after (Reachable.after reachable_blank trivial (by decide)
        (by decide)) trivial (by decide) (by decide)) ⟨_, rfl, rfl⟩ (by decide) (by decide)))
    (B := { strategy := trivialBufferStrategy, operations := .trivial, dataSize := 1,
            dataRevision := 1 }) rfl rfl (by unfold Heap.Full; decide) rfl (by decide)
    (fun _ => rfl)

/-- The byte 7 written to itself with a length of two. -/
theorem selfAppend_goes_on : ¬∀ env h b B len, Reachable env h → h.buffers b = some B →
    B.operations = .trivial → h.Full (h.pagesOf b) → B.strategy.rejectsWrite = false →
    len < 2 ^ 64 → (∀ k, env.grants k = true) → SelfAppendLaw env b len h := by
  intro hall
  obtain ⟨n, h', hrun, hn, -⟩ := hall .generous (.oneByte .generous trivialBufferStrategy) 1 _ 2
    (Reachable.after (Reachable.after (Reachable.after reachable_blank trivial (by decide)
      (by decide)) trivial (by decide) (by decide)) ⟨_, rfl, rfl⟩ (by decide) (by decide))
    rfl rfl (by unfold Heap.Full; decide) rfl (by decide) (fun _ => rfl)
  have hanswer : (Heap.oneByte .generous trivialBufferStrategy).answer .generous
      (.writeBuffer 1 1 2) = some (.count 2) := by decide
  have hexec : exec .generous (.writeBuffer 1 1 2) (.oneByte .generous trivialBufferStrategy)
      = .ok (.count n, h') := bind_run hrun
  rw [Heap.answer, hexec] at hanswer
  have htwo : n = 2 := by simpa using hanswer
  have hone : n = 1 := hn
  omega

end Pb
