import PageBuf.Lib.Sequence
import PageBuf.Client.Isolation

/-!
# Refinement — a trivial buffer is a sequence of bytes

Each operation on one buffer is an operation of `Sequence` on its content, for
a strategy that rejects nothing and surroundings that refuse nothing. Over a
run from the creation of the buffer, with any calls on other buffers in
between, the contents are a run of `Sequence` from the empty list.
-/

namespace Pb

open StateRun

variable {env : Env} {h₀ h h' h'' : Heap} {R R' : Nat → List Nat} {b k len : Nat} {B : Buffer}

structure Strategy.RejectsNothing (σ : Strategy) : Prop where
  insert : σ.rejectsInsert = false
  extend : σ.rejectsExtend = false
  rewind : σ.rejectsRewind = false
  seek : σ.rejectsSeek = false
  trim : σ.rejectsTrim = false
  write : σ.rejectsWrite = false
  overwrite : σ.rejectsOverwrite = false

/-! ## The abstract operation of a call -/

/-- What a call asks of the sequence in `b`; transfers between buffers are
not operations on one sequence. -/
def Op.sequence (h : Heap) (b : Nat) : Op → Option (Sequence.Op UInt8)
  | .writeData c buf => if c = b then some (.append buf) else none
  | .writeDataRef c buf len => if c = b then some (.append (h.bytes buf len)) else none
  | .insertData c it offset buf =>
      if c = b then some (.insert (h.positionOf b it offset) buf) else none
  | .insertDataRef c it offset buf len =>
      if c = b then some (.insert (h.positionOf b it offset) (h.bytes buf len)) else none
  | .extend c len => if c = b then some (.extend len) else none
  | .reserve c size => if c = b then some (.reserve size) else none
  | .rewind c len => if c = b then some (.rewind len) else none
  | .seek c len => if c = b then some (.seek len) else none
  | .trim c len => if c = b then some (.trim len) else none
  | .overwriteData c buf => if c = b then some (.overwrite buf) else none
  | .readData c len => if c = b then some (.read len) else none
  | .clear c => if c = b then some .clear else none
  | .create _ | .destroy _ | .writeBuffer _ _ _ | .insertBuffer _ _ _ _ _ => none

def Ret.answer : Ret → Sequence.Answer UInt8
  | .count n => .count n
  | .bytes bs => .items bs
  | .unit | .buffer _ => .done

/-! ## One call -/

/-- A call did to `b` what the operation `f` does to a sequence. -/
def DoesStep (b : Nat) (f : Sequence.Op UInt8) (h : Heap) (a : Sequence.Answer UInt8)
    (h' : Heap) : Prop :=
  h'.kindOf b = h.kindOf b ∧ Sequence.Step f (h.content b) a (h'.content b)

/-- An insertion that must not fail inserts everything. -/
theorem Inserts.all {Fails Inside AtEnd : Prop} {P : Nat → List UInt8 → Prop}
    {pre post : List UInt8} (hk : Inserts b h R len Fails P pre post Inside AtEnd k h')
    (hno : ¬Fails) (hb : (h.buffers b).isSome) :
    k = len ∧ h'.kindOf b = h.kindOf b ∧ ∃ out, P len out ∧ h'.content b = pre ++ out ++ post := by
  obtain ⟨-, hall, R', out, hP, g⟩ := hk
  obtain rfl : k = len := by_contra fun hn => hno (hall hn)
  have hb' : (h'.buffers b).isSome := by rwa [Heap.buffers_isSome_congr g.frame.kind]
  exact ⟨rfl, congrFun g.frame.kind b, out, hP, by rw [g.core.links.content hb', g.content]⟩

theorem Removes.all {keep : Nat → List UInt8}
    (hk : Removes b h R len false keep k h') (hb : (h.buffers b).isSome) :
    k = min len (h.flat (R b)).length ∧ h'.kindOf b = h.kindOf b ∧
      h'.content b = keep (min len (h.flat (R b)).length) := by
  obtain ⟨-, hall, R', c, -⟩ := hk
  obtain rfl : k = min len (h.flat (R b)).length :=
    by_contra fun hn => Bool.false_ne_true (hall hn)
  have hb' : (h'.buffers b).isSome := by rwa [Heap.buffers_isSome_congr c.frame.kind]
  exact ⟨rfl, congrFun c.frame.kind b, by rw [c.core.links.content hb', c.content]⟩

/-- **One call on the buffer** is one step of the sequence. -/
theorem exec_doesStep {op : Op} {f : Sequence.Op UInt8} (s : Sound h R) (hs : h.Small)
    (hg : ∀ k, env.grants k = true) (hB : h.buffers b = some B)
    (hσ : B.strategy.RejectsNothing) (hv : op.Valid h) (hf : op.sequence h b = some f) :
    Yields (exec env op) h (fun r h' => DoesStep b f h r.answer h') := by
  have hi := s.inv
  have hl := hi.core.links
  have hfits := s.fits hs
  have hb : (h.buffers b).isSome := by rw [hB]; rfl
  have hop : B.operations = .trivial := (s.isTrivial hb).allocator hB
  have ht : h.IsTrivial b := ⟨B, hB, hop⟩
  have hno : ¬Refused env := by
    rintro ⟨k, hk⟩
    simp [hg k] at hk
  have hc := hl.content hb
  cases op with
  | create | destroy | writeBuffer | insertBuffer => simp [Op.sequence] at hf
  | writeData c buf =>
      obtain ⟨rfl, rfl⟩ : c = b ∧ .append buf = f := by simpa [Op.sequence] using hf
      refine Yields.bind (trivialBufferWriteData_spec hi hB hop buf) ?_
      intro k h' hk
      obtain ⟨rfl, hkind, out, rfl, hout⟩ := hk.all (by simp [hno, hσ.write]) hb
      refine yields_pure.mpr ⟨hkind, rfl, ?_⟩
      rw [hout, List.append_nil, List.take_length, hc]
  | writeDataRef c buf len =>
      obtain ⟨rfl, rfl⟩ : c = b ∧ .append (h.bytes buf len) = f := by
        simpa [Op.sequence] using hf
      obtain ⟨-, _, hbuf, -⟩ := hv
      refine Yields.bind (trivialBufferWriteDataRef_spec hi hB hop hbuf len) ?_
      intro k h' hk
      obtain ⟨rfl, hkind, out, rfl, hout⟩ := hk.all (by simp [hno, hσ.write]) hb
      refine yields_pure.mpr ⟨hkind, by rw [Heap.length_bytes]; rfl, ?_⟩
      rw [hout, List.append_nil, List.take_of_length_le (by simp), hc]
  | insertData c it offset buf =>
      obtain ⟨rfl, rfl⟩ : c = b ∧ .insert (h.positionOf b it offset) buf = f := by
        simpa [Op.sequence] using hf
      obtain ⟨-, hp⟩ := hv
      obtain ⟨k₁, k₂, hR, hit, -⟩ := hl.position hb hp
      refine Yields.bind (trivialBufferInsertData_spec hi hB hop hR hit offset buf) ?_
      intro k h' hk
      obtain ⟨rfl, hkind, out, rfl, hout⟩ := hk.all (by simp [hno, hσ.insert]) hb
      refine yields_pure.mpr ⟨hkind, rfl, ?_⟩
      rw [hout, List.take_length, hl.before hb hR hit, hl.behind hb hR hit]
      rfl
  | insertDataRef c it offset buf len =>
      obtain ⟨rfl, rfl⟩ : c = b ∧
          .insert (h.positionOf b it offset) (h.bytes buf len) = f := by
        simpa [Op.sequence] using hf
      obtain ⟨-, hp, _, hbuf, -⟩ := hv
      obtain ⟨k₁, k₂, hR, hit, -⟩ := hl.position hb hp
      refine Yields.bind (trivialBufferInsertDataRef_spec hi hB hop hR hit offset hbuf len) ?_
      intro k h' hk
      obtain ⟨rfl, hkind, out, rfl, hout⟩ := hk.all (by simp [hno, hσ.insert]) hb
      refine yields_pure.mpr ⟨hkind, by rw [Heap.length_bytes]; rfl, ?_⟩
      rw [hout, List.take_of_length_le (by simp), hl.before hb hR hit, hl.behind hb hR hit]
      rfl
  | extend c len =>
      obtain ⟨rfl, rfl⟩ : c = b ∧ .extend len = f := by simpa [Op.sequence] using hf
      refine Yields.bind (trivialBufferExtend_spec hi hB hop len) ?_
      intro k h' hk
      obtain ⟨rfl, hkind, out, hlen, hout⟩ := hk.all (by simp [hno, hσ.extend]) hb
      exact yields_pure.mpr ⟨hkind, rfl, out, hlen, by rw [hout, List.append_nil, hc]⟩
  | reserve c size =>
      obtain ⟨rfl, rfl⟩ : c = b ∧ .reserve size = f := by simpa [Op.sequence] using hf
      refine Yields.bind (trivialBufferReserve_spec hi hB hop size) ?_
      intro k h' hk
      obtain ⟨rfl, hkind, out, hlen, hout⟩ := hk.all (by simp [hno, hσ.extend]) hb
      refine yields_pure.mpr ⟨hkind, by rw [hc]; rfl, out, by rw [hc, hlen], ?_⟩
      rw [hout, List.append_nil, hc]
  | rewind c len =>
      obtain ⟨rfl, rfl⟩ : c = b ∧ .rewind len = f := by simpa [Op.sequence] using hf
      refine Yields.bind (trivialBufferRewind_spec hi hB hop len) ?_
      intro k h' hk
      obtain ⟨rfl, hkind, out, hlen, hout⟩ := hk.all (by simp [hno, hσ.rewind]) hb
      exact yields_pure.mpr ⟨hkind, rfl, out, hlen, by rw [hout, List.nil_append, hc]⟩
  | seek c len =>
      obtain ⟨rfl, rfl⟩ : c = b ∧ .seek len = f := by simpa [Op.sequence] using hf
      refine Yields.bind (trivialBufferSeek_spec hi hfits (s.full c) hB hop len) ?_
      rw [hσ.seek]
      intro k h' hk
      obtain ⟨rfl, hkind, hout⟩ := hk.all hb
      exact yields_pure.mpr ⟨hkind, by rw [hc]; rfl, by rw [hout, hc]⟩
  | trim c len =>
      obtain ⟨rfl, rfl⟩ : c = b ∧ .trim len = f := by simpa [Op.sequence] using hf
      refine Yields.bind (trivialBufferTrim_spec hi hfits (s.full c) hB hop len) ?_
      rw [hσ.trim]
      intro k h' hk
      obtain ⟨rfl, hkind, hout⟩ := hk.all hb
      exact yields_pure.mpr ⟨hkind, by rw [hc]; rfl, by rw [hout, hc]⟩
  | overwriteData c buf =>
      obtain ⟨rfl, rfl⟩ : c = b ∧ .overwrite buf = f := by simpa [Op.sequence] using hf
      refine Yields.bind (trivialBufferOverwriteData_spec hi hfits (s.full c) hB hop buf) ?_
      rintro k h' ⟨-, hall, hbec, -⟩
      have hk : k = min buf.length (h.content c).length := by
        rw [hc]
        by_contra hn
        simpa [hno, hσ.overwrite] using hall hn
      have hb' : (h'.buffers c).isSome := by rwa [Heap.buffers_isSome_congr hbec.frame.kind]
      refine yields_pure.mpr ⟨congrFun hbec.frame.kind c, by rw [hk]; rfl, ?_⟩
      rw [hbec.core.links.content hb', hbec.content, ← hc, hk]
  | readData c len =>
      obtain ⟨rfl, rfl⟩ : c = b ∧ .read len = f := by simpa [Op.sequence] using hf
      refine Yields.bind (trivialBufferReadData_spec hl ht len) ?_
      rintro bs h' ⟨rfl, o, rfl⟩
      exact yields_pure.mpr ⟨rfl, by rw [hc]; rfl, rfl⟩
  | clear c =>
      obtain ⟨rfl, rfl⟩ : c = b ∧ .clear = f := by simpa [Op.sequence] using hf
      refine Yields.bind (trivialBufferClear_spec hi hfits ht) ?_
      rintro _ h' hbec
      have hb' : (h'.buffers c).isSome := by rwa [Heap.buffers_isSome_congr hbec.frame.kind]
      refine yields_pure.mpr ⟨congrFun hbec.frame.kind c, rfl, ?_⟩
      rw [hbec.core.links.content hb', hbec.content]

/-! ## Runs -/

/-- Calls on `b` and calls on other buffers, in any order; the operations on
`b` with their answers. -/
inductive BufferRun (env : Env) (b : Nat) (h : Heap) :
    List (Sequence.Op UInt8 × Sequence.Answer UInt8) → Heap → Prop where
  | nil : BufferRun env b h [] h
  | call {l h' h'' op r f} : BufferRun env b h l h' → Call env op r h' h'' →
      op.sequence h' b = some f → BufferRun env b h (l ++ [(f, r.answer)]) h''
  | other {l h' h'' op r} : BufferRun env b h l h' → Call env op r h' h'' →
      op.target ≠ some b → BufferRun env b h l h''

/-- The buffer `b` with its strategy, in a reachable state. -/
structure Serves (env : Env) (b : Nat) (σ : Strategy) (h : Heap) : Prop where
  reachable : Reachable env h
  kind : h.kindOf b = some (σ, .trivial)

theorem Serves.buffer {σ : Strategy} (v : Serves env b σ h) :
    ∃ B, h.buffers b = some B ∧ B.strategy = σ := by
  obtain ⟨B, hB, hk⟩ := Option.map_eq_some_iff.mp v.kind
  exact ⟨B, hB, (Prod.mk.inj hk).1⟩

theorem Serves.exec {σ : Strategy} {op : Op} {f : Sequence.Op UInt8} (v : Serves env b σ h)
    (hg : ∀ k, env.grants k = true) (hσ : σ.RejectsNothing) (hv : op.Valid h)
    (hf : op.sequence h b = some f) :
    Yields (exec env op) h (fun r h' => DoesStep b f h r.answer h') := by
  obtain ⟨R, s⟩ := v.reachable.sound
  obtain ⟨B, hB, rfl⟩ := v.buffer
  exact exec_doesStep s v.reachable.small hg hB hσ hv hf

/-- A new buffer is empty. -/
theorem Call.serves {σ : Strategy} (hr : Reachable env h₀)
    (c : Call env (.create σ) (.buffer (some b)) h₀ h) : Serves env b σ h ∧ h.content b = [] := by
  have hadd : Yields (exec env (.create σ)) h₀ (fun r h' =>
      ∀ b, r = .buffer (some b) → AddBuffer h₀ h' b σ) := by
    refine Yields.bind (trivialBufferCreate_run env h₀ σ) ?_
    intro o h' hpost
    refine yields_pure.mpr fun b hb => ?_
    cases hb
    exact hpost
  have ab : AddBuffer h₀ h b σ := hadd.of_run c.run b rfl
  obtain ⟨R, s⟩ := hr.sound
  have hcore := ab.core s.inv.core
  have hbuf : h.buffers b = some (newBuffer σ) := by
    rw [ab.buffers, Function.update_self]
  refine ⟨⟨hr.call c, by rw [Heap.kindOf, hbuf]; rfl⟩, ?_⟩
  rw [hcore.links.content (by rw [hbuf]; rfl),
    s.inv.core.links.dead (ab.buffer_none s.inv.core.links), Heap.flat_nil]

theorem BufferRun.serves {σ : Strategy} {l : List (Sequence.Op UInt8 × Sequence.Answer UInt8)}
    (hrun : BufferRun env b h l h') (hg : ∀ k, env.grants k = true) (hσ : σ.RejectsNothing)
    (v : Serves env b σ h) :
    Serves env b σ h' ∧ Sequence.Run (h.content b) l (h'.content b) := by
  induction hrun with
  | nil => exact ⟨v, .nil _⟩
  | call _ c hf ih =>
      obtain ⟨v', hl⟩ := ih
      obtain ⟨hkind, hstep⟩ := (v'.exec hg hσ c.valid hf).of_run c.run
      exact ⟨⟨v'.reachable.call c, hkind.trans v'.kind⟩, .snoc hl hstep⟩
  | other _ c hne ih =>
      obtain ⟨v', hl⟩ := ih
      obtain ⟨R, s⟩ := v'.reachable.sound
      obtain ⟨R', s', m⟩ := c.leads s
      obtain ⟨B, hB, -⟩ := v'.buffer
      have hun := m.unchanged s s' (by rw [hB]; rfl) hne
      refine ⟨⟨v'.reachable.call c, ?_⟩, hun.content ▸ hl⟩
      rw [Heap.kindOf, hun.buffer]
      exact v'.kind

/-- The byte 7 in a new buffer under the address 1. -/
def Heap.written : Heap :=
  (Heap.blank.withBuffer trivialBufferStrategy).after .generous (.writeData 1 [7])

theorem call_written : Call .generous (.writeData 1 [7]) (.count 1)
    (Heap.blank.withBuffer trivialBufferStrategy) .written where
  valid := ⟨_, rfl, rfl⟩
  small := small_of_next (by decide)
  run := rfl
  small' := small_of_next (by decide)

end Pb
