import PageBuf.Client.Isolation
import PageBuf.Readers.Reading

/-!
# Consume — what a consumption counts

`pb_data_reader_consume` reads from where the reader stands, but counts what it
drops from the first byte of the buffer. The two agree only for a reader that
stands there.
-/

namespace Pb

open StateRun

variable {env : Env} {h₀ h h' : Heap} {R R' : Nat → List Nat} {b k n : Nat} {B : Buffer}
  {σ : Strategy} {r r' : DataReader}

/-! ## Runs -/

/-- The reader reads and consumes, and anything is done to other buffers. -/
inductive ConsumeStep (env : Env) (b : Nat) (x : DataReader × Heap) : DataReader × Heap → Prop where
  | read {n out r' h'} : dataReaderRead env x.1 n x.2 = .ok ((out, r'), h') →
      ConsumeStep env b x (r', h')
  | consume {n out k r' h'} : dataReaderConsume env x.1 n x.2 = .ok ((out, k, r'), h') →
      ConsumeStep env b x (r', h')
  | other {op a h'} : Call env op a x.2 h' → op.target ≠ some b → ConsumeStep env b x (x.1, h')

def ConsumeRun (env : Env) (b : Nat) : DataReader × Heap → DataReader × Heap → Prop :=
  Relation.ReflTransGen (ConsumeStep env b)

/-- The place in the content a read starts from: the first byte, if the
revision has moved. -/
def DataReader.position (r : DataReader) (h : Heap) : Nat :=
  if r.bufferDataRevision = revisionValue (h.revOf r.buffer) then
    h.positionOf r.buffer r.bufferIterator r.pageOffset
  else 0

/-- A consumption returns the number of bytes it delivers, which are those
behind the place of the reader, and leaves what follows them. -/
def ConsumeExact (env : Env) (b : Nat) (r : DataReader) (h : Heap) (n : Nat) : Prop :=
  Yields (dataReaderConsume env r n) h (fun q h' => q.2.1 = q.1.length ∧
    q.1.length = min n ((h.content b).length - r.position h) ∧
    h'.content b = (h.content b).drop (r.position h + q.1.length))

/-! ## The reader -/

/-- What holds between the steps of a run. -/
structure Poised (b : Nat) (σ : Strategy) (r : DataReader) (h : Heap) (R : Nat → List Nat) :
    Prop where
  sound : Sound h R
  small : h.Small
  kind : h.kindOf b = some (σ, .trivial)
  buffer : r.buffer = b
  rests : r.bufferDataRevision = revisionValue (h.revOf b) → ∃ k, r.Rests h (R b) k

theorem DataReader.Rests.position (hr : r.Rests h (R b) k) (hl : Links h R [])
    (hb : (h.buffers b).isSome) (hbuf : r.buffer = b) :
    h.positionOf b r.bufferIterator r.pageOffset = k := by
  rcases hr with ⟨hit, hoff, rfl, hnil⟩ | ⟨l₁, p, l₂, hR, hit, hoff, -, rfl⟩
  · rw [hl.positionOf hb (show R b = [] ++ [] from hnil) (hit.trans hbuf), hoff]
    simp
  · rw [hl.positionOf hb hR hit, hit, Nat.min_eq_left hoff]

/-- While the revision stands and nothing is added the pages stay. -/
theorem Stable.ring_eq (st : Stable b h h' R R') (hrev : h'.revOf b = h.revOf b)
    (hf : h'.Full (R' b)) (hlen : (h'.flat (R' b)).length = (h.flat (R b)).length) :
    R' b = R b := by
  obtain ⟨⟨t, ht⟩, hsame, -⟩ := st hrev
  rw [← ht, Heap.flat_append, flat_of_same hsame, List.length_append] at hlen
  have hfull : h'.Full t := fun p hp => hf p (by rw [← ht]; exact List.mem_append_right _ hp)
  have hle := hfull.length_le
  have hnil : t = [] := List.eq_nil_of_length_eq_zero (by omega)
  rw [← ht, hnil, List.append_nil]

/-- While the pages stay the reader stays. -/
theorem DataReader.Rests.congr {l : List Nat} (hr : r.Rests h l k)
    (hsame : ∀ p ∈ l, Same h h' p) : r.Rests h' l k := by
  rcases hr with hr | ⟨l₁, p, l₂, rfl, hit, hoff, hlast, hk⟩
  · exact .inl hr
  · have hlen := (hsame p (by simp)).len
    refine .inr ⟨l₁, p, l₂, rfl, hit, by rwa [hlen], by rwa [hlen], ?_⟩
    rw [hk, flat_of_same fun q hq => hsame q (List.mem_append_left _ hq)]

namespace Poised

variable (y : Poised b σ r h R)

include y

/-- Where a read starts. -/
theorem start : r.bufferDataRevision ≠ revisionValue (h.revOf b) ∧ r.position h = 0 ∨
    r.bufferDataRevision = revisionValue (h.revOf b) ∧ r.At h (R b) (r.position h) ∧
      ¬r.Parked h := by
  have hb := isSome_of_kind y.kind
  unfold DataReader.position
  rw [y.buffer]
  by_cases hrev : r.bufferDataRevision = revisionValue (h.revOf b)
  · obtain ⟨k, hk⟩ := y.rests hrev
    have hl := y.sound.inv.core.links
    rw [if_pos hrev, hk.position hl hb y.buffer]
    exact .inr ⟨hrev, hk.at, hk.not_parked hl hb y.buffer⟩
  · exact .inl ⟨hrev, by rw [if_neg hrev]⟩

theorem position_le : r.position h ≤ (h.content b).length := by
  rw [y.sound.content (isSome_of_kind y.kind)]
  rcases y.start with ⟨-, hzero⟩ | ⟨-, hat, -⟩
  · omega
  · exact hat.le

/-- A read keeps the reader where it comes to. -/
theorem read : Yields (dataReaderRead env r n) h (fun q h' => Poised b σ q.2 h' R) := by
  have hb := isSome_of_kind y.kind
  refine (dataReaderRead_spec y.sound.inv.core.links (y.sound.isTrivial hb)
    y.sound.inv.core.views y.buffer (y.sound.full b) y.start).mono ?_
  rintro q _ ⟨⟨o, rfl⟩, -, hrests, hbuf, hrev⟩
  exact ⟨y.sound.marked o, y.small, y.kind, hbuf, fun _ => ⟨_, hrests⟩⟩

/-- A call that leaves the buffer alone leaves the reader where it is. -/
theorem other {op : Op} {a : Ret} (c : Call env op a h h') (hne : op.target ≠ some b) :
    ∃ R', Poised b σ r h' R' := by
  have hb := isSome_of_kind y.kind
  obtain ⟨R', s', m⟩ := c.leads y.sound
  obtain ⟨hbuf, hsame⟩ := m.other hb hne.symm
  have hkind : h'.kindOf b = h.kindOf b := by rw [Heap.kindOf, Heap.kindOf, hbuf]
  have hrev : h'.revOf b = h.revOf b := by rw [Heap.revOf, Heap.revOf, hbuf]
  refine ⟨R', s', c.small', hkind.trans y.kind, y.buffer, fun heq => ?_⟩
  rw [hrev] at heq
  obtain ⟨k, hk⟩ := y.rests heq
  rw [m.ring hne.symm]
  exact ⟨k, hk.congr hsame⟩

/-- **A consumption** delivers what is behind the place of the reader, and drops
as many bytes as the place it comes to counts. -/
theorem consume : Yields (dataReaderConsume env r n) h (fun q h' =>
    q.1 = ((h.content b).drop (r.position h)).take n ∧
    (σ.rejectsSeek = false → q.2.1 = r.position h + q.1.length) ∧
    (σ.rejectsSeek = true → q.2.1 = 0) ∧ h'.content b = (h.content b).drop q.2.1 ∧
    ∃ R', Poised b σ q.2.2 h' R') := by
  have hb := isSome_of_kind y.kind
  obtain ⟨B, hB, rfl, hop⟩ := exists_buffer_of_kind y.kind
  have hfits := y.sound.fits y.small
  refine (dataReaderConsume_from y.sound.inv hfits hB hop y.buffer (y.sound.full b) y.start).mono ?_
  intro q h' hpost
  obtain ⟨hout, ⟨o, hremoves⟩, hkept, hrests, hbuf, hrev⟩ := hpost
  obtain ⟨hdrop, -, hall⟩ := hremoves.dropped (y.sound.marked o) ⟨B, hB, hop⟩
  obtain ⟨-, -, R', c, st⟩ := hremoves
  have s' : Sound h' R' := (y.sound.marked o).became c
  have hle : r.position h + q.1.length ≤ (h.content b).length := by
    rw [y.sound.content hb]
    exact hrests.at.le
  refine ⟨by rw [y.sound.content hb, hout], fun hrej => (hall hrej).trans (Nat.min_eq_left hle),
    hkept, hdrop, R', s', ?_, (congrFun c.frame.kind b).trans y.kind, hbuf, fun heq => ?_⟩
  · exact (c.fits (hfits.idle y.sound.inv.core { Idle.refl h with })).small
  · -- the revision stands only if nothing was dropped, and then the pages stand as well
    have hmarked : (h.marked o).revOf b = h.revOf b := rfl
    have hzero : q.2.1 = 0 := by
      by_contra hn
      have hbump := c.revision
      rw [if_neg hn, hmarked] at hbump
      rw [hrev] at heq
      unfold revisionValue at heq
      omega
    have hstands : h'.revOf b = (h.marked o).revOf b := by
      rw [c.revision, if_pos hzero]
      rfl
    have hring : R' b = R b := by
      refine st.ring_eq hstands (s'.full b) ?_
      rw [c.content, hzero]
      rfl
    have hrests' : q.2.2.Rests (h.marked o) (R b) (r.position h + q.1.length) := hrests
    rw [hring]
    exact ⟨_, hrests'.congr (st hstands).2.1⟩

/-- **A consumption is exact** if the reader stands at the first byte and the
buffer lets go of what is delivered. -/
theorem exact_iff : ConsumeExact env b r h n ↔ r.position h = 0 ∧
    (σ.rejectsSeek = false ∨ n = 0 ∨ h.content b = []) := by
  have hy : Yields (dataReaderConsume env r n) h _ := y.consume
  obtain ⟨q, h', hrun, hout, hall, hkept, hdrop, -⟩ := hy
  have hle := y.position_le
  have hlen : q.1.length = min n ((h.content b).length - r.position h) := by
    rw [hout, List.length_take, List.length_drop]
  have hexact : ConsumeExact env b r h n ↔ q.2.1 = q.1.length ∧
      q.1.length = min n ((h.content b).length - r.position h) ∧
      h'.content b = (h.content b).drop (r.position h + q.1.length) :=
    ⟨fun hy => hy.of_run hrun, fun hall => .intro hrun hall⟩
  rw [hexact, ← List.length_eq_zero_iff]
  cases hrej : σ.rejectsSeek with
  | false =>
      have hcount := hall hrej
      constructor
      · rintro ⟨hreturn, -, -⟩
        exact ⟨by omega, .inl rfl⟩
      · rintro ⟨hzero, -⟩
        exact ⟨by omega, hlen, by rw [hdrop, hcount]⟩
  | true =>
      have hcount := hkept hrej
      constructor
      · rintro ⟨hreturn, -, hrest⟩
        -- nothing was dropped, so nothing was delivered and nothing lies before the reader
        have hlen' := congrArg List.length hrest
        rw [hdrop, hcount, List.drop_zero, List.length_drop] at hlen'
        exact ⟨by omega, .inr (by omega)⟩
      · rintro ⟨hzero, hnone⟩
        have hempty := hnone.resolve_left (by simp)
        refine ⟨by omega, hlen, ?_⟩
        rw [hdrop]
        congr 1
        omega

end Poised

/-! ## The law -/

theorem ConsumeRun.poised {x x' : DataReader × Heap} (hrun : ConsumeRun env b x x')
    (y : Poised b σ x.1 x.2 R) : ∃ R', Poised b σ x'.1 x'.2 R' := by
  induction hrun with
  | refl => exact ⟨R, y⟩
  | tail _ hstep ih =>
      obtain ⟨R', y'⟩ := ih
      cases hstep with
      | read hrun => exact ⟨R', y'.read.of_run hrun⟩
      | consume hrun => exact (y'.consume.of_run hrun).2.2.2.2
      | other c hne => exact y'.other c hne

/-- **A consumption reports what it delivered** exactly where the reader stands
at the first byte, in a buffer that lets go of what is consumed. -/
theorem consume_exact (hr : Reachable env h₀) (hk : h₀.kindOf b = some (σ, .trivial))
    (hcreate : dataReaderCreate env b h₀ = .ok (some r, h)) {x : DataReader × Heap}
    (hrun : ConsumeRun env b (r, h) x) (n : Nat) :
    ConsumeExact env b x.1 x.2 n ↔ x.1.position x.2 = 0 ∧
      (σ.rejectsSeek = false ∨ n = 0 ∨ x.2.content b = []) := by
  obtain ⟨B, hB, -, hop⟩ := exists_buffer_of_kind hk
  obtain ⟨rfl, -, R, s, hsmall, hrests, hbuf, -⟩ := dataReaderCreate_spec hr ⟨B, hB, hop⟩ hcreate
  have y : Poised b σ r h₀.granted R := ⟨s, hsmall, hk, hbuf, fun _ => ⟨0, hrests⟩⟩
  obtain ⟨R', y'⟩ := hrun.poised y
  exact y'.exact_iff

/-- A reader of `abc` that has read the first byte. -/
def DataReader.pastA : DataReader := ⟨1, 4, 1, 1⟩

theorem create_abc : dataReaderCreate .generous 1 .abc
    = .ok (some ⟨1, 4, 1, 0⟩, Heap.abc.granted) := rfl

theorem run_pastA : ConsumeRun .generous 1 (⟨1, 4, 1, 0⟩, Heap.abc.granted)
    (.pastA, Heap.abc.granted) :=
  .single (.read (n := 1) (show dataReaderRead _ _ _ _ = .ok (([97], _), _) from rfl))

theorem consume_exact_abc : ConsumeExact .generous 1 .pastA Heap.abc.granted 1 ↔
    DataReader.pastA.position Heap.abc.granted = 0 ∧
      (trivialBufferStrategy.rejectsSeek = false ∨ 1 = 0 ∨ Heap.abc.granted.content 1 = []) :=
  consume_exact reachable_abc rfl create_abc run_pastA 1

/-- In every run of a reader of `b` a consumption is exact. -/
def ConsumeLaw (env : Env) (b : Nat) (h₀ : Heap) : Prop :=
  ∀ r h x n, dataReaderCreate env b h₀ = .ok (some r, h) → ConsumeRun env b (r, h) x →
    ConsumeExact env b x.1 x.2 n

/-- **A consumption behind a read** of the first byte of `abc` delivers the
second, and drops two. -/
theorem consume_counts_twice : ¬∀ env b h₀, Reachable env h₀ → h₀.IsTrivial b →
    ConsumeLaw env b h₀ := by
  intro hlaw
  have hexact : ConsumeExact .generous 1 .pastA Heap.abc.granted 1 :=
    hlaw _ 1 _ reachable_abc ⟨_, rfl, rfl⟩ _ _ _ 1 create_abc run_pastA
  obtain ⟨q, h', hrun, hreturn, -⟩ := hexact
  have hcount : (dataReaderConsume .generous .pastA 1 Heap.abc.granted).toOption.map
      (fun a => (a.1.1, a.1.2.1)) = some ([98], 2) := rfl
  rw [hrun] at hcount
  obtain ⟨hout, htwo⟩ := Prod.mk.inj (Option.some.inj hcount)
  rw [hout, htwo] at hreturn
  exact absurd hreturn (by decide)

end Pb
