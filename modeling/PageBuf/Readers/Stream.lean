import PageBuf.Client.Transfers
import PageBuf.Client.Refinement
import PageBuf.Readers.Reading

/-!
# Stream — bytes on their way through two buffers

Bytes are written to one buffer, moved to a second without being copied, and
taken from there by a data reader that consumes or by reading and seeking.
None is lost, repeated or reordered as long as the revision of the second
buffer does not come back to a value the reader has seen.
-/

namespace Pb

open StateRun

variable {env : Env} {h₀ h h' : Heap} {R R' : Nat → List Nat} {b b₁ b₂ v : Nat}
  {σ σ₁ σ₂ : Strategy} {r r' : DataReader} {l l' : List Nat}

/-! ## Runs -/

/-- Where a run has got to: what was written to the first buffer, what was
delivered from the second, the reader of the second, and the heap. -/
structure Stream where
  written : List UInt8
  delivered : List UInt8
  reader : DataReader
  heap : Heap

inductive StreamStep (env : Env) (b₁ b₂ : Nat) (s : Stream) : Stream → Prop where
  | write {buf k h'} : Call env (.writeData b₁ buf) (.count k) s.heap h' →
      StreamStep env b₁ b₂ s { s with written := s.written ++ buf, heap := h' }
  | writeRef {buf len k h'} : Call env (.writeDataRef b₁ buf len) (.count k) s.heap h' →
      StreamStep env b₁ b₂ s
        { s with written := s.written ++ s.heap.bytes buf len, heap := h' }
  | transfer {t n k h' h''} : Call env (.writeBuffer b₂ b₁ t) (.count n) s.heap h' →
      Call env (.seek b₁ t) (.count k) h' h'' → StreamStep env b₁ b₂ s { s with heap := h'' }
  | consume {n out k r' h'} :
      dataReaderConsume env s.reader n s.heap = .ok ((out, k, r'), h') →
      StreamStep env b₁ b₂ s ⟨s.written, s.delivered ++ out, r', h'⟩
  | read {n out k h' h''} : Call env (.readData b₂ n) (.bytes out) s.heap h' →
      Call env (.seek b₂ n) (.count k) h' h'' →
      StreamStep env b₁ b₂ s { s with delivered := s.delivered ++ out, heap := h'' }

/-- Steps that lead to states with the property `ok`. -/
def StreamRun (env : Env) (b₁ b₂ : Nat) (ok : Stream → Prop) : Stream → Stream → Prop :=
  Relation.ReflTransGen (fun s s' => StreamStep env b₁ b₂ s s' ∧ ok s')

/-- What is delivered, in the second buffer and in the first are the bytes at
the start and those written since; and every further step returns what it
should. -/
structure StreamHolds (env : Env) (b₁ b₂ : Nat) (start : List UInt8) (s : Stream) : Prop where
  law : s.delivered ++ s.heap.content b₂ ++ s.heap.content b₁ = start ++ s.written
  write : ∀ buf, Yields (exec env (.writeData b₁ buf)) s.heap (fun a _ => a = .count buf.length)
  writeRef : ∀ buf len, s.heap.IsCallerMemory buf len →
    Yields (exec env (.writeDataRef b₁ buf len)) s.heap (fun a _ => a = .count len)
  transfer : ∀ t, t < 2 ^ 64 → Yields (exec env (.writeBuffer b₂ b₁ t)) s.heap (fun a h' =>
    a = .count (min t (s.heap.content b₁).length) ∧ (h'.Small →
      Yields (exec env (.seek b₁ t)) h' (fun a' _ =>
        a' = .count (min t (s.heap.content b₁).length))))
  consume : ∀ n, Yields (dataReaderConsume env s.reader n) s.heap (fun q _ =>
    q.1 = (s.heap.content b₂).take n ∧ q.2.1 = min n (s.heap.content b₂).length)
  read : ∀ n, Yields (exec env (.readData b₂ n)) s.heap (fun a h' =>
    a = .bytes ((s.heap.content b₂).take n) ∧ Yields (exec env (.seek b₂ n)) h' (fun a' _ =>
      a' = .count (min n (s.heap.content b₂).length)))

/-! ## The reader -/

/-- The reader was reset at some revision since `v`, and if the buffer still
shows it, it stands at the first byte. -/
structure Follows (b v : Nat) (r : DataReader) (h : Heap) (l : List Nat) : Prop where
  buffer : r.buffer = b
  seen : ∃ w, v ≤ w ∧ w ≤ h.revOf b ∧ r.bufferDataRevision = revisionValue w ∧
    (w = h.revOf b → r.At h l 0)

/-- Fewer than `2^64` revisions are told apart by their values. -/
theorem Follows.fresh (f : Follows b v r h l) (hlt : h.revOf b < v + 2 ^ 64) :
    r.bufferDataRevision ≠ revisionValue (h.revOf b) ∨
      r.bufferDataRevision = revisionValue (h.revOf b) ∧ r.At h l 0 := by
  obtain ⟨w, hv, hw, hseen, hat⟩ := f.seen
  by_cases heq : w = h.revOf b
  · exact .inr ⟨by rw [hseen, heq], hat heq⟩
  · left
    rw [hseen]
    unfold revisionValue
    omega

theorem Follows.mono (f : Follows b v r h l) (hle : h.revOf b ≤ h'.revOf b)
    (hst : h'.revOf b = h.revOf b → l <+: l' ∧ (∀ p ∈ l, Same h h' p) ∧ (l = [] → l' = [])) :
    Follows b v r h' l' := by
  obtain ⟨w, hv, hw, hseen, hat⟩ := f.seen
  refine ⟨f.buffer, w, hv, Nat.le_trans hw hle, hseen, fun heq => ?_⟩
  have hrev : h'.revOf b = h.revOf b := by omega
  obtain ⟨hpre, hsame, -⟩ := hst hrev
  exact (hat (heq.trans hrev)).mono hpre hsame

/-! ## The invariant -/

/-- What holds between the steps of a run, apart from the law. -/
structure Pipe (σ₁ σ₂ : Strategy) (b₁ b₂ v : Nat) (r : DataReader) (h : Heap)
    (R : Nat → List Nat) : Prop where
  sound : Sound h R
  small : h.Small
  first : h.kindOf b₁ = some (σ₁, .trivial)
  second : h.kindOf b₂ = some (σ₂, .trivial)
  reader : Follows b₂ v r h (R b₂)

theorem Op.target_of_sequence {op : Op} {f : Sequence.Op UInt8}
    (hf : op.sequence h b = some f) : op.target = some b := by
  cases op with
  | create | destroy | writeBuffer | insertBuffer => simp [Op.sequence] at hf
  | writeData c | writeDataRef c | insertData c | insertDataRef c | extend c | reserve c
  | rewind c | seek c | trim c | overwriteData c | readData c | clear c =>
      by_cases hc : c = b
      · rw [hc]
        rfl
      · simp [Op.sequence, hc] at hf

theorem Ret.answer_count {a : Ret} {n : Nat} (h : a.answer = .count n) : a = .count n := by
  cases a with
  | count m => exact congrArg Ret.count (Sequence.Answer.count.inj h)
  | unit | bytes | buffer => simp [Ret.answer] at h

theorem Ret.answer_items {a : Ret} {bs : List UInt8} (h : a.answer = .items bs) :
    a = .bytes bs := by
  cases a with
  | bytes m => exact congrArg Ret.bytes (Sequence.Answer.items.inj h)
  | unit | count | buffer => simp [Ret.answer] at h

/-- The two buffers are still there, with their strategies. -/
def SameKinds (b₁ b₂ : Nat) (h h' : Heap) : Prop :=
  h'.kindOf b₁ = h.kindOf b₁ ∧ h'.kindOf b₂ = h.kindOf b₂

namespace Pipe

variable (p : Pipe σ₁ σ₂ b₁ b₂ v r h R)

include p

/-- What a call moves, it moves under the reader. -/
theorem moved {target : Option Nat} (s' : Sound h' R') (hs : h'.Small)
    (m : Moved target h h' R R') (hk : SameKinds b₁ b₂ h h') : Pipe σ₁ σ₂ b₁ b₂ v r h' R' := by
  obtain ⟨h₁, h₂⟩ := hk
  have hb := isSome_of_kind p.second
  have hb' := isSome_of_kind (h₂.trans p.second)
  obtain ⟨-, hle, st⟩ := m.stable hb' (p.sound.inv.core.links.buffer_fresh hb)
  exact ⟨s', hs, h₁.trans p.first, h₂.trans p.second, p.reader.mono hle st⟩

/-- One operation on one of the two buffers. -/
theorem act (op : Op) {f : Sequence.Op UInt8} (hg : ∀ k, env.grants k = true)
    (hb : b = b₁ ∨ b = b₂) (hk : h.kindOf b = some (σ, .trivial)) (hσ : σ.RejectsNothing)
    (hv : op.Valid h) (hf : op.sequence h b = some f) :
    Yields (exec env op) h (fun a h' =>
      Sequence.Step f (h.content b) a.answer (h'.content b) ∧
        (∀ c, c = b₁ ∨ c = b₂ → c ≠ b → h'.content c = h.content c) ∧
        SameKinds b₁ b₂ h h' ∧ (h'.Small → ∃ R', Pipe σ₁ σ₂ b₁ b₂ v r h' R')) := by
  obtain ⟨B, hB, rfl, -⟩ := exists_buffer_of_kind hk
  have hno : ¬Refused env := by
    rintro ⟨k, hk⟩
    simp [hg k] at hk
  refine ((exec_doesStep p.sound p.small hg hB hσ hv hf).and
    (exec_leads p.sound p.small hv)).mono ?_
  intro a h' hpost
  obtain ⟨⟨hkind, hstep⟩, hleads⟩ := hpost
  obtain ⟨R', s', m⟩ := hleads (Or.inr hno)
  have hun : ∀ c, c = b₁ ∨ c = b₂ → c ≠ b → Unchanged c h h' := fun c hc hne => by
    refine m.unchanged p.sound s' ?_ ?_
    · rcases hc with rfl | rfl
      · exact isSome_of_kind p.first
      · exact isSome_of_kind p.second
    · rw [Op.target_of_sequence hf]
      exact fun he => hne (Option.some.inj he).symm
  have hkinds : ∀ c, c = b₁ ∨ c = b₂ → h'.kindOf c = h.kindOf c := fun c hc => by
    by_cases he : c = b
    · rw [he]
      exact hkind
    · exact (hun c hc he).kindOf
  have hk : SameKinds b₁ b₂ h h' := ⟨hkinds b₁ (.inl rfl), hkinds b₂ (.inr rfl)⟩
  exact ⟨hstep, fun c hc hne => (hun c hc hne).content, hk, fun hs => ⟨R', p.moved s' hs m hk⟩⟩

/-- The transfer appends to the second buffer what it takes from the first. -/
theorem writeBuffer (hg : ∀ k, env.grants k = true) (hσ : σ₂.RejectsNothing) (hne : b₁ ≠ b₂)
    {t : Nat} (ht : t < 2 ^ 64) :
    Yields (exec env (.writeBuffer b₂ b₁ t)) h (fun a h' =>
      a = .count (min t (h.content b₁).length) ∧
        h'.content b₂ = h.content b₂ ++ (h.content b₁).take t ∧
        h'.content b₁ = h.content b₁ ∧ (h.content b₂ ≠ [] → h'.revOf b₂ = h.revOf b₂) ∧
        SameKinds b₁ b₂ h h' ∧ (h'.Small → ∃ R', Pipe σ₁ σ₂ b₁ b₂ v r h' R')) := by
  obtain ⟨B₁, hB₁, -, hop₁⟩ := exists_buffer_of_kind p.first
  obtain ⟨B₂, hB₂, rfl, hop₂⟩ := exists_buffer_of_kind p.second
  have hb₁ := isSome_of_kind p.first
  have hb₂ := isSome_of_kind p.second
  have hfull : ∀ {c}, (h.buffers c).isSome → h.Full (h.pagesOf c) := fun {c} hc => by
    rw [p.sound.pagesOf hc]
    exact p.sound.full c
  have hno : ¬Refused env := by
    rintro ⟨k, hk⟩
    simp [hg k] at hk
  have hv : (Op.writeBuffer b₂ b₁ t).Valid h := ⟨⟨B₂, hB₂, hop₂⟩, ⟨B₁, hB₁, hop₁⟩, ht⟩
  have hspliced : Yields (exec env (.writeBuffer b₂ b₁ t)) h (fun a h' =>
      ∃ n, a = .count n ∧ n = min t (h.content b₁).length ∧
        Spliced b₂ b₁ (h.content b₂).length n h h') := by
    refine Yields.bind ((transfer_spliced ⟨R, p.sound.inv⟩ hB₂ hop₂ ⟨B₁, hB₁, hop₁⟩ hne
      (hfull hb₂) (hfull hb₁) ht hg).1 hσ.write) ?_
    exact fun n h' hn => yields_pure.mpr ⟨n, rfl, hn⟩
  refine ((hspliced.and (exec_leads p.sound p.small hv)).and
    (exec_append p.sound hv (b := b₂) rfl)).mono ?_
  intro a h' hpost
  obtain ⟨⟨⟨n, rfl, hn, hsp⟩, hleads⟩, happ⟩ := hpost
  obtain ⟨R', s', m⟩ := hleads (Or.inr hno)
  have hun := m.unchanged p.sound s' hb₁ (c := b₁) fun he => hne (Option.some.inj he).symm
  have hk : SameKinds b₁ b₂ h h' := ⟨hun.kindOf, (happ (Or.inr hno)).kind⟩
  refine ⟨by rw [hn], ?_, hsp.source, (happ (Or.inr hno)).revision_eq, hk,
    fun hs => ⟨R', p.moved s' hs m hk⟩⟩
  rw [hsp.content, Sequence.splice_length, hn, ← List.take_eq_take_min]

/-- The reader delivers the first bytes of the second buffer, which go. -/
theorem consume (hσ : σ₂.RejectsNothing) (hne : b₁ ≠ b₂) (hlt : h.revOf b₂ < v + 2 ^ 64)
    (n : Nat) :
    Yields (dataReaderConsume env r n) h (fun q h' => q.1 = (h.content b₂).take n ∧
      q.2.1 = min n (h.content b₂).length ∧ h'.content b₂ = (h.content b₂).drop n ∧
      h'.content b₁ = h.content b₁ ∧ ∃ R', Pipe σ₁ σ₂ b₁ b₂ v q.2.2 h' R') := by
  obtain ⟨B, hB, rfl, hop⟩ := exists_buffer_of_kind p.second
  have hb₁ := isSome_of_kind p.first
  have hb₂ := isSome_of_kind p.second
  refine (dataReaderConsume_spec p.sound.inv (p.sound.fits p.small) hB hop hσ.seek
    p.reader.buffer (p.sound.full b₂) (p.reader.fresh hlt)).mono ?_
  intro q h' hpost
  obtain ⟨hout, ⟨o, hk, -, R', c, st⟩, hcount, hat, hbuf, hrev⟩ := hpost
  have sm := p.sound.marked o
  have s' : Sound h' R' := sm.became c
  have hsmall : h'.Small := (c.fits ((p.sound.fits p.small).idle p.sound.inv.core
    { Idle.refl h with })).small
  have m : Moved (some b₂) (h.marked o) h' R R' := Moved.of_frame c.frame st
  have hun := m.unchanged sm s' hb₁ (c := b₁) fun he => hne (Option.some.inj he).symm
  have hkind := congrFun c.frame.kind b₂
  have hb' : (h'.buffers b₂).isSome := isSome_of_kind (hkind.trans p.second)
  rw [← p.sound.content hb₂] at hout
  have hlen : q.1.length = min n (h.content b₂).length := by rw [hout, List.length_take]
  refine ⟨hout, by rw [hcount, hlen], ?_, hun.content, R', s', hsmall,
    hun.kindOf.trans p.first, hkind.trans p.second, hbuf, h.revOf b₂, ?_, ?_, hrev, ?_⟩
  · rw [s'.content hb', c.content, ← p.sound.content hb₂, hcount, hlen]
    exact List.drop_eq_drop_min.symm
  · obtain ⟨w, hv, hw, -⟩ := p.reader.seen
    exact Nat.le_trans hv hw
  · exact c.frame.revision
  · -- the revision stands only if nothing was read
    intro heq
    have hzero : q.2.1 = 0 := by
      by_contra hn
      have hbump := c.revision
      rw [if_neg hn] at hbump
      have hmarked : (h.marked o).revOf b₂ = h.revOf b₂ := rfl
      omega
    obtain ⟨hpre, hsame, -⟩ := st heq.symm
    rw [← hcount, hzero] at hat
    have hat' : q.2.2.At (h.marked o) (R b₂) 0 := hat
    exact hat'.mono hpre hsame

/-- Bytes appended to the first buffer. -/
theorem append (op : Op) (hg : ∀ k, env.grants k = true) (hσ : σ₁.RejectsNothing)
    (hne : b₁ ≠ b₂) {t : List UInt8} (hv : op.Valid h) (hf : op.sequence h b₁ = some (.append t)) :
    Yields (exec env op) h (fun a h' => a = .count t.length ∧
      h'.content b₁ = h.content b₁ ++ t ∧ h'.content b₂ = h.content b₂ ∧
        SameKinds b₁ b₂ h h' ∧ (h'.Small → ∃ R', Pipe σ₁ σ₂ b₁ b₂ v r h' R')) := by
  refine (p.act op hg (.inl rfl) p.first hσ hv hf).mono ?_
  intro a h' hpost
  obtain ⟨⟨hanswer, hcontent⟩, hother, hp⟩ := hpost
  exact ⟨Ret.answer_count hanswer, hcontent, hother b₂ (.inr rfl) hne.symm, hp⟩

/-- Bytes read from the second buffer. -/
theorem readData (hg : ∀ k, env.grants k = true) (hσ : σ₂.RejectsNothing) (hne : b₁ ≠ b₂)
    (n : Nat) :
    Yields (exec env (.readData b₂ n)) h (fun a h' => a = .bytes ((h.content b₂).take n) ∧
      h'.revOf b₂ = h.revOf b₂ ∧ h'.content b₂ = h.content b₂ ∧ h'.content b₁ = h.content b₁ ∧
        SameKinds b₁ b₂ h h' ∧ ∃ R', Pipe σ₁ σ₂ b₁ b₂ v r h' R') := by
  obtain ⟨B, hB, -, hop⟩ := exists_buffer_of_kind p.second
  have hsame : Yields (exec env (.readData b₂ n)) h (fun _ h' => ∃ o, h' = h.marked o) := by
    refine Yields.bind (trivialBufferReadData_spec p.sound.inv.core.links ⟨B, hB, hop⟩ n) ?_
    exact fun bs h' hbs => yields_pure.mpr hbs.2
  refine ((p.act (.readData b₂ n) hg (.inr rfl) p.second hσ ⟨B, hB, hop⟩
    (if_pos rfl)).and hsame).mono ?_
  intro a h' hpost
  obtain ⟨⟨⟨hanswer, hcontent⟩, hother, hk, hp⟩, o, rfl⟩ := hpost
  exact ⟨Ret.answer_items hanswer, rfl, hcontent, hother b₁ (.inl rfl) hne, hk, hp p.small⟩

/-- The first bytes of a buffer are dropped. -/
theorem seek (hg : ∀ k, env.grants k = true) (hb : b = b₁ ∨ b = b₂)
    (hk : h.kindOf b = some (σ, .trivial)) (hσ : σ.RejectsNothing) (n : Nat) :
    Yields (exec env (.seek b n)) h (fun a h' => a = .count (min n (h.content b).length) ∧
      h'.content b = (h.content b).drop n ∧
      (∀ c, c = b₁ ∨ c = b₂ → c ≠ b → h'.content c = h.content c) ∧
        SameKinds b₁ b₂ h h' ∧ (h'.Small → ∃ R', Pipe σ₁ σ₂ b₁ b₂ v r h' R')) := by
  obtain ⟨B, hB, -, hop⟩ := exists_buffer_of_kind hk
  refine (p.act (.seek b n) hg hb hk hσ ⟨B, hB, hop⟩ (if_pos rfl)).mono ?_
  intro a h' hpost
  obtain ⟨⟨hanswer, hcontent⟩, hrest⟩ := hpost
  refine ⟨Ret.answer_count hanswer, ?_, hrest⟩
  rw [hcontent]
  exact List.drop_eq_drop_min.symm

end Pipe

/-! ## Steps and runs -/

/-- **One step** keeps the invariant and the law. -/
theorem Pipe.step {s s' : Stream} {start : List UInt8} (p : Pipe σ₁ σ₂ b₁ b₂ v s.reader s.heap R)
    (hg : ∀ k, env.grants k = true) (hσ₁ : σ₁.RejectsNothing) (hσ₂ : σ₂.RejectsNothing)
    (hne : b₁ ≠ b₂) (hlt : s.heap.revOf b₂ < v + 2 ^ 64) (hstep : StreamStep env b₁ b₂ s s')
    (hlaw : s.delivered ++ s.heap.content b₂ ++ s.heap.content b₁ = start ++ s.written) :
    (∃ R', Pipe σ₁ σ₂ b₁ b₂ v s'.reader s'.heap R') ∧
      s'.delivered ++ s'.heap.content b₂ ++ s'.heap.content b₁ = start ++ s'.written := by
  cases hstep with
  | write c =>
      obtain ⟨-, h₁, h₂, -, hp⟩ := (p.append _ hg hσ₁ hne c.valid (if_pos rfl)).of_run c.run
      refine ⟨hp c.small', ?_⟩
      dsimp only
      rw [h₁, h₂, ← List.append_assoc, hlaw, List.append_assoc]
  | writeRef c =>
      obtain ⟨-, h₁, h₂, -, hp⟩ := (p.append _ hg hσ₁ hne c.valid (if_pos rfl)).of_run c.run
      refine ⟨hp c.small', ?_⟩
      dsimp only
      rw [h₁, h₂, ← List.append_assoc, hlaw, List.append_assoc]
  | @transfer t _ _ _ _ c c' =>
      obtain ⟨-, h₂, h₁, -, -, hp⟩ := (p.writeBuffer hg hσ₂ hne c.valid.2.2).of_run c.run
      obtain ⟨R₁, p₁⟩ := hp c.small'
      obtain ⟨-, h₁', hother, -, hp'⟩ := (p₁.seek hg (.inl rfl) p₁.first hσ₁ t).of_run c'.run
      refine ⟨hp' c'.small', ?_⟩
      dsimp only
      -- what the second buffer gains is what the first loses
      rw [hother b₂ (.inr rfl) hne.symm, h₂, h₁', h₁, List.append_assoc, List.append_assoc,
        List.take_append_drop, ← List.append_assoc, hlaw]
  | @consume n _ _ _ _ hrun =>
      obtain ⟨hout, -, h₂, h₁, hp⟩ := (p.consume hσ₂ hne hlt n).of_run hrun
      refine ⟨hp, ?_⟩
      dsimp only at hout ⊢
      rw [hout, h₂, h₁, List.append_assoc s.delivered, List.take_append_drop, hlaw]
  | @read n _ _ _ _ c c' =>
      obtain ⟨hout, -, h₂, h₁, -, R₁, p₁⟩ := (p.readData hg hσ₂ hne n).of_run c.run
      obtain ⟨-, h₂', hother, -, hp'⟩ := (p₁.seek hg (.inr rfl) p₁.second hσ₂ n).of_run c'.run
      refine ⟨hp' c'.small', ?_⟩
      dsimp only
      rw [Ret.bytes.inj hout, h₂', h₂, hother b₁ (.inl rfl) hne, h₁,
        List.append_assoc s.delivered, List.take_append_drop, hlaw]

/-- In a state that meets the invariant every step returns what it should. -/
theorem Pipe.holds {s : Stream} {start : List UInt8} (p : Pipe σ₁ σ₂ b₁ b₂ v s.reader s.heap R)
    (hg : ∀ k, env.grants k = true) (hσ₁ : σ₁.RejectsNothing) (hσ₂ : σ₂.RejectsNothing)
    (hne : b₁ ≠ b₂) (hlt : s.heap.revOf b₂ < v + 2 ^ 64)
    (hlaw : s.delivered ++ s.heap.content b₂ ++ s.heap.content b₁ = start ++ s.written) :
    StreamHolds env b₁ b₂ start s where
  law := hlaw
  write := fun buf => by
    obtain ⟨B, hB, -, hop⟩ := exists_buffer_of_kind p.first
    exact (p.append (.writeData b₁ buf) hg hσ₁ hne ⟨B, hB, hop⟩ (if_pos rfl)).mono
      fun _ _ hpost => hpost.1
  writeRef := fun buf len hbuf => by
    obtain ⟨B, hB, -, hop⟩ := exists_buffer_of_kind p.first
    refine (p.append (.writeDataRef b₁ buf len) hg hσ₁ hne ⟨⟨B, hB, hop⟩, hbuf⟩
      (if_pos rfl)).mono ?_
    intro a h' hpost
    rw [hpost.1, Heap.length_bytes]
  transfer := fun t ht => by
    refine (p.writeBuffer hg hσ₂ hne ht).mono ?_
    intro a h' hpost
    obtain ⟨hanswer, -, h₁, -, -, hp⟩ := hpost
    refine ⟨hanswer, fun hs => ?_⟩
    obtain ⟨R', p'⟩ := hp hs
    refine (p'.seek hg (.inl rfl) p'.first hσ₁ t).mono ?_
    intro a' h'' hseek
    rw [hseek.1, h₁]
  consume := fun n => (p.consume hσ₂ hne hlt n).mono fun _ _ hpost => ⟨hpost.1, hpost.2.1⟩
  read := fun n => by
    refine (p.readData hg hσ₂ hne n).mono ?_
    intro a h' hpost
    obtain ⟨hanswer, -, h₂, -, -, R', p'⟩ := hpost
    refine ⟨hanswer, (p'.seek hg (.inr rfl) p'.second hσ₂ n).mono ?_⟩
    intro a' h'' hseek
    rw [hseek.1, h₂]

/-- A new reader stands at the first byte. -/
theorem pipe_of_create (hr : Reachable env h₀) (h₁ : h₀.kindOf b₁ = some (σ₁, .trivial))
    (h₂ : h₀.kindOf b₂ = some (σ₂, .trivial))
    (hcreate : dataReaderCreate env b₂ h₀ = .ok (some r, h)) :
    ∃ R, Pipe σ₁ σ₂ b₁ b₂ (h₀.revOf b₂) r h R ∧ h.revOf b₂ = h₀.revOf b₂ ∧
      h.content b₁ = h₀.content b₁ ∧ h.content b₂ = h₀.content b₂ := by
  obtain ⟨B, hB, -, hop⟩ := exists_buffer_of_kind h₂
  obtain ⟨rfl, hcontent, R, s', hsmall, hrests, hbuf, hrev⟩ :=
    dataReaderCreate_spec hr ⟨B, hB, hop⟩ hcreate
  exact ⟨R, ⟨s', hsmall, h₁, h₂, hbuf, h₀.revOf b₂, Nat.le_refl _, Nat.le_refl _, hrev,
    fun _ => hrests.at⟩, rfl, hcontent b₁ (isSome_of_kind h₁), hcontent b₂ (isSome_of_kind h₂)⟩

/-- Every run from the creation of a reader on that leads to states with the
property `ok` carries the bytes as it should. -/
def StreamLaw (env : Env) (b₁ b₂ : Nat) (h₀ : Heap) (ok : Stream → Prop) : Prop :=
  ∀ r h s, dataReaderCreate env b₂ h₀ = .ok (some r, h) →
    StreamRun env b₁ b₂ ok ⟨[], [], r, h⟩ s →
    StreamHolds env b₁ b₂ (h₀.content b₂ ++ h₀.content b₁) s

/-- Two trivial buffers of a reachable state, in surroundings that refuse
nothing, with strategies that reject nothing. -/
structure Connects (env : Env) (b₁ b₂ : Nat) (σ₁ σ₂ : Strategy) (h₀ : Heap) : Prop where
  reachable : Reachable env h₀
  grants : ∀ k, env.grants k = true
  distinct : b₁ ≠ b₂
  first : h₀.kindOf b₁ = some (σ₁, .trivial)
  second : h₀.kindOf b₂ = some (σ₂, .trivial)
  firstRejects : σ₁.RejectsNothing
  secondRejects : σ₂.RejectsNothing

theorem Connects.run {s : Stream} (x : Connects env b₁ b₂ σ₁ σ₂ h₀)
    (hcreate : dataReaderCreate env b₂ h₀ = .ok (some r, h))
    (hrun : StreamRun env b₁ b₂ (fun s => s.heap.revOf b₂ < h₀.revOf b₂ + 2 ^ 64)
      ⟨[], [], r, h⟩ s) :
    s.heap.revOf b₂ < h₀.revOf b₂ + 2 ^ 64 ∧
      (∃ R', Pipe σ₁ σ₂ b₁ b₂ (h₀.revOf b₂) s.reader s.heap R') ∧
      s.delivered ++ s.heap.content b₂ ++ s.heap.content b₁
        = h₀.content b₂ ++ h₀.content b₁ ++ s.written := by
  obtain ⟨R, p, hrev, hc₁, hc₂⟩ := pipe_of_create x.reachable x.first x.second hcreate
  induction hrun with
  | refl =>
      refine ⟨?_, ⟨R, p⟩, ?_⟩
      · dsimp only
        omega
      · simp [hc₁, hc₂]
  | tail _ hstep ih =>
      obtain ⟨hlt, ⟨R', p'⟩, hlaw⟩ := ih
      exact ⟨hstep.2, p'.step x.grants x.firstRejects x.secondRejects x.distinct hlt hstep.1
        hlaw⟩

/-- **The stream law** in every run in which the second buffer moves through
fewer than `2^64` revisions. -/
theorem stream_law (x : Connects env b₁ b₂ σ₁ σ₂ h₀) :
    StreamLaw env b₁ b₂ h₀ (fun s => s.heap.revOf b₂ < h₀.revOf b₂ + 2 ^ 64) := by
  intro r h s hcreate hrun
  obtain ⟨hlt, ⟨R', p'⟩, hlaw⟩ := x.run hcreate hrun
  exact p'.holds x.grants x.firstRejects x.secondRejects x.distinct hlt hlaw

/-! ## A revision that comes round -/

/-- Two buffers with few bytes, and no other buffer. -/
theorem Sound.small_of_content (s : Sound h R)
    (honly : ∀ c, (h.buffers c).isSome → c = b₁ ∨ c = b₂) (h₁ : (h.buffers b₁).isSome)
    (h₂ : (h.buffers b₂).isSome)
    (hlen : (h.content b₁).length + (h.content b₂).length ≤ 65535) : h.Small := by
  intro d
  have hl := s.inv.core.links
  have hsub : h.linkedPages ⊆ R b₁ ++ R b₂ := by
    intro q hq
    obtain ⟨c, hc⟩ := hl.mem_linkedPages.mp hq
    have hlive : (h.buffers c).isSome := by
      by_contra hn
      simp [hl.dead (Option.not_isSome_iff_eq_none.mp hn)] at hc
    rcases honly c hlive with rfl | rfl
    · exact List.mem_append_left _ hc
    · exact List.mem_append_right _ hc
  have hle : h.linkedPages.length ≤ (R b₁ ++ R b₂).length :=
    hl.nodup_linkedPages.length_le_of_subset hsub
  have hcount : h.refs d ≤ h.linkedPages.length := by
    rw [← s.inv.users_eq d]
    exact List.countP_le_length
  have hlen₁ := (s.full b₁).length_le
  have hlen₂ := (s.full b₂).length_le
  rw [← s.content h₁] at hlen₁
  rw [← s.content h₂] at hlen₂
  rw [List.length_append] at hle
  omega

/-- A reader whose page is gone, between a pair of buffers that are the only
ones. -/
structure Turning (σ₁ σ₂ : Strategy) (b₁ b₂ v : Nat) (r : DataReader) (h : Heap)
    (R : Nat → List Nat) : Prop where
  pipe : Pipe σ₁ σ₂ b₁ b₂ v r h R
  only : ∀ c, (h.buffers c).isSome → c = b₁ ∨ c = b₂
  gone : h.pages r.bufferIterator = none
  used : r.bufferIterator < h.next

/-- A call on one of the two buffers that leaves few bytes in them. -/
theorem Turning.call (op : Op) {Q : Ret → Heap → Prop} (t : Turning σ₁ σ₂ b₁ b₂ v r h R)
    (hg : ∀ k, env.grants k = true) (hv : op.Valid h) (htarget : op.target ≠ none)
    (hQ : Yields (exec env op) h Q)
    (hpost : ∀ a h', Q a h' → (h'.content b₁).length + (h'.content b₂).length ≤ 65535 ∧
      SameKinds b₁ b₂ h h') :
    ∃ a h' R', Call env op a h h' ∧ Q a h' ∧ Moved op.target h h' R R' ∧
      Turning σ₁ σ₂ b₁ b₂ v r h' R' := by
  have p := t.pipe
  have hno : ¬Refused env := by
    rintro ⟨k, hk⟩
    simp [hg k] at hk
  obtain ⟨a, h', hrun, hq, hleads⟩ := hQ.and (exec_leads p.sound p.small hv)
  obtain ⟨R', s', m⟩ := hleads (Or.inr hno)
  obtain ⟨hlen, hk⟩ := hpost a h' hq
  have honly : ∀ c, (h'.buffers c).isSome → c = b₁ ∨ c = b₂ := fun c hc =>
    t.only c ((m.born hc).resolve_left htarget)
  have hsmall : h'.Small := s'.small_of_content honly (isSome_of_kind (hk.1.trans p.first))
    (isSome_of_kind (hk.2.trans p.second)) hlen
  refine ⟨a, h', R', ⟨hv, p.small, hrun, hsmall⟩, hq, m, p.moved s' hsmall m hk, honly, ?_,
    Nat.lt_of_lt_of_le t.used m.world.next⟩
  by_contra hn
  have hlive := m.world.page (Option.ne_none_iff_isSome.mp hn) t.used
  simp [t.gone] at hlive

/-- A seek over bytes that are there moves the revision by one. -/
theorem exec_seek_revision (s : Sound h R) (hs : h.Small) (hk : h.kindOf b = some (σ, .trivial))
    (hσ : σ.RejectsNothing) {n : Nat} (hn : 0 < n) (hne : h.content b ≠ []) :
    Yields (exec env (.seek b n)) h (fun _ h' => h'.revOf b = h.revOf b + 1) := by
  obtain ⟨B, hB, rfl, hop⟩ := exists_buffer_of_kind hk
  have hpos := List.length_pos_iff.mpr hne
  rw [s.content (isSome_of_kind hk)] at hpos
  refine Yields.bind (trivialBufferSeek_spec s.inv (s.fits hs) (s.full b) hB hop n) ?_
  rw [hσ.seek]
  intro k h' hk'
  obtain ⟨-, hall, R', c, -⟩ := hk'
  obtain rfl : k = min n (h.flat (R b)).length := by_contra fun he => Bool.false_ne_true (hall he)
  refine yields_pure.mpr ?_
  rw [c.revision, if_neg]
  rw [Nat.min_def]
  split <;> omega

/-- A state in which the second buffer holds one byte and shows the revision `k`. -/
structure AfterTurns (σ₁ σ₂ : Strategy) (b₁ b₂ v : Nat) (r : DataReader) (k : Nat) (s : Stream) :
    Prop where
  reader : s.reader = r
  turning : ∃ R, Turning σ₁ σ₂ b₁ b₂ v r s.heap R
  first : s.heap.content b₁ = []
  second : s.heap.content b₂ = [7]
  revision : s.heap.revOf b₂ = k

/-- One more byte written, moved, read and dropped: only the revision has moved. -/
theorem AfterTurns.turn {k : Nat} {s : Stream} (t : AfterTurns σ₁ σ₂ b₁ b₂ v r k s)
    (hg : ∀ k, env.grants k = true) (hσ₁ : σ₁.RejectsNothing) (hσ₂ : σ₂.RejectsNothing)
    (hne : b₁ ≠ b₂) :
    ∃ s', StreamRun env b₁ b₂ (fun _ => True) s s' ∧ AfterTurns σ₁ σ₂ b₁ b₂ v r (k + 1) s' := by
  obtain ⟨hreader, ⟨R, t₀⟩, h₁, h₂, hrev⟩ := t
  have hk₁ := t₀.pipe.first
  have hk₂ := t₀.pipe.second
  -- the byte is written
  obtain ⟨_, g₁, R₁, c₁, ⟨rfl, hf₁, hs₁, -⟩, m₁, t₁⟩ := t₀.call (.writeData b₁ [7]) hg
    (isTrivial_of_kind hk₁) (by simp [Op.target])
    (t₀.pipe.append _ hg hσ₁ hne (isTrivial_of_kind hk₁) (if_pos rfl)) (fun a g hpost => by
      obtain ⟨-, hc₁, hc₂, hkinds, -⟩ := hpost
      exact ⟨by simp [hc₁, hc₂, h₁, h₂], hkinds⟩)
  rw [h₁] at hf₁
  rw [h₂] at hs₁
  have hrev₁ : g₁.revOf b₂ = k := by
    rw [Heap.revOf, (m₁.other (isSome_of_kind hk₂) (fun he => hne (Option.some.inj he).symm)).1]
    exact hrev
  -- and moved
  obtain ⟨_, g₂, R₂, c₂, ⟨rfl, hs₂, hf₂, hrev₂, -⟩, m₂, t₂⟩ := t₁.call
    (.writeBuffer b₂ b₁ 1) hg ⟨isTrivial_of_kind t₁.pipe.second,
      isTrivial_of_kind t₁.pipe.first, by omega⟩ (by simp [Op.target])
    (t₁.pipe.writeBuffer hg hσ₂ hne (by omega)) (fun a g hpost => by
      obtain ⟨-, hc₂, hc₁, -, hkinds, -⟩ := hpost
      exact ⟨by simp [hc₁, hc₂, hf₁, hs₁], hkinds⟩)
  rw [hf₁, hs₁] at hs₂
  rw [hf₁] at hf₂
  have hrev₂' : g₂.revOf b₂ = k := (hrev₂ (by simp [hs₁])).trans hrev₁
  obtain ⟨_, g₃, R₃, c₃, ⟨rfl, hf₃, hs₃, -⟩, m₃, t₃⟩ := t₂.call (.seek b₁ 1) hg
    (isTrivial_of_kind t₂.pipe.first) (by simp [Op.target])
    (t₂.pipe.seek hg (.inl rfl) t₂.pipe.first hσ₁ 1) (fun a g hpost => by
      obtain ⟨-, hc₁, hc₂, hkinds, -⟩ := hpost
      exact ⟨by simp [hc₁, hc₂ b₂ (.inr rfl) hne.symm, hf₂, hs₂], hkinds⟩)
  rw [hf₂] at hf₃
  have hs₃' := hs₃ b₂ (.inr rfl) hne.symm
  rw [hs₂] at hs₃'
  have hrev₃ : g₃.revOf b₂ = k := by
    rw [Heap.revOf, (m₃.other (isSome_of_kind t₂.pipe.second)
      (fun he => hne (Option.some.inj he).symm)).1]
    exact hrev₂'
  -- the first byte of the second buffer is read and dropped
  obtain ⟨_, g₄, R₄, c₄, ⟨rfl, hrev₄, hs₄, hf₄, -⟩, m₄, t₄⟩ := t₃.call (.readData b₂ 1) hg
    (isTrivial_of_kind t₃.pipe.second) (by simp [Op.target])
    (t₃.pipe.readData hg hσ₂ hne 1) (fun a g hpost => by
      obtain ⟨-, -, hc₂, hc₁, hkinds, -⟩ := hpost
      exact ⟨by simp [hc₁, hc₂, hf₃, hs₃'], hkinds⟩)
  rw [hs₃'] at hs₄
  rw [hf₃] at hf₄
  obtain ⟨_, g₅, R₅, c₅, ⟨⟨rfl, hs₅, hf₅, -⟩, hrev₅⟩, m₅, t₅⟩ := t₄.call (.seek b₂ 1) hg
    (isTrivial_of_kind t₄.pipe.second) (by simp [Op.target])
    ((t₄.pipe.seek hg (.inr rfl) t₄.pipe.second hσ₂ 1).and
      (exec_seek_revision t₄.pipe.sound t₄.pipe.small t₄.pipe.second hσ₂ (Nat.one_pos)
        (by simp [hs₄]))) (fun a g hpost => by
      obtain ⟨⟨-, hc₂, hc₁, hkinds, -⟩, -⟩ := hpost
      exact ⟨by simp [hc₁ b₁ (.inl rfl) hne, hc₂, hf₄, hs₄], hkinds⟩)
  refine ⟨⟨s.written ++ [7], s.delivered ++ (g₃.content b₂).take 1, s.reader, g₅⟩, ?_,
    hreader, ⟨R₅, t₅⟩, ?_, ?_, ?_⟩
  · exact ((Relation.ReflTransGen.single ⟨.write c₁, trivial⟩).tail
      ⟨.transfer c₂ c₃, trivial⟩).tail ⟨.read c₄ c₅, trivial⟩
  · rw [hf₅ b₁ (.inl rfl) hne, hf₄]
    rfl
  · rw [hs₅, hs₄]
    rfl
  · rw [hrev₅, hrev₄, hrev₃]

theorem AfterTurns.turns {k : Nat} {s : Stream} (t : AfterTurns σ₁ σ₂ b₁ b₂ v r k s)
    (hg : ∀ k, env.grants k = true) (hσ₁ : σ₁.RejectsNothing) (hσ₂ : σ₂.RejectsNothing)
    (hne : b₁ ≠ b₂) (n : Nat) :
    ∃ s', StreamRun env b₁ b₂ (fun _ => True) s s' ∧ AfterTurns σ₁ σ₂ b₁ b₂ v r (k + n) s' := by
  induction n with
  | zero => exact ⟨s, .refl, t⟩
  | succ n ih =>
      obtain ⟨s', hrun, t'⟩ := ih
      obtain ⟨s'', hrun', t''⟩ := t'.turn hg hσ₁ hσ₂ hne
      exact ⟨s'', hrun.trans hrun', t''⟩

/-- A reader whose page is gone faults where the revision is the one it saw. -/
theorem dataReaderConsume_dangling {B : Buffer} {n : Nat} (hB : h.buffers r.buffer = some B)
    (hrev : r.bufferDataRevision = revisionValue (h.revOf r.buffer))
    (hgone : h.pages r.bufferIterator = none) :
    dataReaderConsume env r n h = .error .dangling := by
  have hfail : pageGetLen r.bufferIterator h = .error .dangling := by
    unfold pageGetLen
    exact bind_fails (by simp [getPage, hgone])
  have hread : dataReaderRead env r n h = .error .dangling := by
    unfold dataReaderRead
    refine (bind_run (bufferGetDataRevision_run hB)).trans ?_
    rw [if_neg (by rw [hrev]; simp)]
    exact (bind_run rfl).trans (bind_fails hfail)
  unfold dataReaderConsume
  exact bind_fails hread

/-- Two new buffers under the addresses 1 and 3, and a reader of the second. -/
def Stream.fresh : Stream :=
  ⟨[], [], ⟨3, 3, 0, 0⟩, (Heap.twoBuffers trivialBufferStrategy trivialBufferStrategy).granted⟩

def Heap.put (h : Heap) : Heap := h.after .generous (.writeData 1 [7])

def Heap.sent (h : Heap) : Heap := h.after .generous (.writeBuffer 3 1 1)

def Heap.dropped (h : Heap) : Heap := h.after .generous (.seek 1 1)

/-- A byte is written to the buffer 1 and moved to the buffer 3. -/
def Stream.carry (s : Stream) : Stream :=
  { s with written := s.written ++ [7], heap := s.heap.put.sent.dropped }

/-- A byte is consumed. -/
def Stream.take (s : Stream) : Stream :=
  match dataReaderConsume .generous s.reader 1 s.heap with
  | .ok ((out, _, r), h) => ⟨s.written, s.delivered ++ out, r, h⟩
  | .error _ => s

/-- The reader has consumed the first byte, and its page with it; a second
byte has followed. -/
def Stream.stale : Stream := Stream.fresh.carry.take.carry

theorem connects_twoBuffers : Connects .generous 1 3 trivialBufferStrategy trivialBufferStrategy
    (.twoBuffers trivialBufferStrategy trivialBufferStrategy) where
  reachable := reachable_twoBuffers _ _
  grants := fun _ => rfl
  distinct := by decide
  first := rfl
  second := rfl
  firstRejects := ⟨rfl, rfl, rfl, rfl, rfl, rfl, rfl⟩
  secondRejects := ⟨rfl, rfl, rfl, rfl, rfl, rfl, rfl⟩

/-- Carrying a byte is two steps. -/
theorem StreamRun.carry {ok : Stream → Prop} {s : Stream} (hs : s.heap.Small)
    (ht : s.heap.IsTrivial 1) (ht₁ : s.heap.put.IsTrivial 1) (ht₃ : s.heap.put.IsTrivial 3)
    (ht₁' : s.heap.put.sent.IsTrivial 1)
    (hput : s.heap.answer .generous (.writeData 1 [7]) = some (.count 1))
    (hsent : s.heap.put.answer .generous (.writeBuffer 3 1 1) = some (.count 1))
    (hdropped : s.heap.put.sent.answer .generous (.seek 1 1) = some (.count 1))
    (hn : s.heap.put.next ≤ 65535 ∧ s.heap.put.sent.next ≤ 65535 ∧
      s.heap.put.sent.dropped.next ≤ 65535)
    (hok : ok { s with written := s.written ++ [7], heap := s.heap.put }) (hok' : ok s.carry) :
    StreamRun .generous 1 3 ok s s.carry := by
  have c : Call .generous (.writeData 1 [7]) (.count 1) s.heap s.heap.put :=
    call_after hs ht hput hn.1
  have c' : Call .generous (.writeBuffer 3 1 1) (.count 1) s.heap.put s.heap.put.sent :=
    call_after c.small' ⟨ht₃, ht₁, by omega⟩ hsent hn.2.1
  have c'' : Call .generous (.seek 1 1) (.count 1) s.heap.put.sent s.heap.put.sent.dropped :=
    call_after c'.small' ht₁' hdropped hn.2.2
  exact (Relation.ReflTransGen.single ⟨.write c, hok⟩).tail ⟨.transfer c' c'', hok'⟩

theorem run_stale : StreamRun .generous 1 3 (fun s => s.heap.revOf 3
    < (Heap.twoBuffers trivialBufferStrategy trivialBufferStrategy).revOf 3 + 2 ^ 64)
    .fresh .stale := by
  have hfirst : StreamRun .generous 1 3 (fun s => s.heap.revOf 3
      < (Heap.twoBuffers trivialBufferStrategy trivialBufferStrategy).revOf 3 + 2 ^ 64)
      .fresh Stream.fresh.carry :=
    .carry (small_of_next (by decide)) ⟨_, rfl, rfl⟩ ⟨_, rfl, rfl⟩ ⟨_, rfl, rfl⟩ ⟨_, rfl, rfl⟩
      (by decide) (by decide) (by decide) (by decide) (by decide) (by decide)
  have hconsumed : StreamStep .generous 1 3 Stream.fresh.carry Stream.fresh.carry.take :=
    .consume (n := 1) rfl
  refine (hfirst.tail ⟨hconsumed, by decide⟩).trans ?_
  exact StreamRun.carry (small_of_next (by decide)) ⟨_, rfl, rfl⟩ ⟨_, rfl, rfl⟩ ⟨_, rfl, rfl⟩
    ⟨_, rfl, rfl⟩ (by decide) (by decide) (by decide) (by decide) (by decide) (by decide)

theorem afterTurns_stale : AfterTurns trivialBufferStrategy trivialBufferStrategy 1 3 0 ⟨3, 8, 1, 1⟩ 3
    .stale := by
  obtain ⟨-, ⟨R, p⟩, -⟩ := connects_twoBuffers.run (r := ⟨3, 3, 0, 0⟩) rfl run_stale
  refine ⟨by decide, ⟨R, p, ?_, by decide, by decide⟩, by decide, by decide, by decide⟩
  intro c hc
  have hlt := p.sound.inv.core.links.buffer_fresh hc
  have hall : ∀ c, c < Stream.stale.heap.next → (Stream.stale.heap.buffers c).isSome →
      c = 1 ∨ c = 3 := by decide
  exact hall c hlt hc

theorem stream_law_twoBuffers : StreamLaw .generous 1 3
    (.twoBuffers trivialBufferStrategy trivialBufferStrategy) (fun s => s.heap.revOf 3
      < (Heap.twoBuffers trivialBufferStrategy trivialBufferStrategy).revOf 3 + 2 ^ 64) :=
  stream_law connects_twoBuffers

/-- **Without the bound** the law fails: once the second buffer shows again the
revision that the reader saw, the reader follows an iterator to a freed page. -/
theorem stream_comes_round : ¬∀ env b₁ b₂ σ₁ σ₂ h₀, Connects env b₁ b₂ σ₁ σ₂ h₀ →
    StreamLaw env b₁ b₂ h₀ (fun _ => True) := by
  intro hlaw
  obtain ⟨s, hrun, t⟩ := afterTurns_stale.turns connects_twoBuffers.grants
    connects_twoBuffers.firstRejects connects_twoBuffers.secondRejects (by decide) (2 ^ 64 - 2)
  have hstale : StreamRun .generous 1 3 (fun _ => True) .fresh .stale :=
    Relation.ReflTransGen.mono (fun _ _ hstep => ⟨hstep.1, trivial⟩) _ _ run_stale
  have hholds := hlaw _ _ _ _ _ _ connects_twoBuffers _ _ s rfl (hstale.trans hrun)
  obtain ⟨hreader, ⟨R, turning⟩, -, -, hrev⟩ := t
  obtain ⟨B, hB, -, -⟩ := exists_buffer_of_kind turning.pipe.second
  refine not_yields_of_fails (e := .dangling) ?_ (hholds.consume 1)
  refine dataReaderConsume_dangling (B := B) ?_ ?_ ?_
  · rw [hreader]
    exact hB
  · rw [hreader]
    dsimp only
    rw [hrev]
    rfl
  · rw [hreader]
    exact turning.gone

end Pb
