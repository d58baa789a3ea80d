import PageBuf.Lib.Cursor
import PageBuf.Readers.DataReader
import PageBuf.Client.Revision

/-!
# Reading — a data reader over a buffer that grows

Reads and appends in any order, as long as the revision stands. A reader that
is never parked when it reads is a cursor in the content. A reader that is
parked goes on at the start of the next page with the offset it had in the
last one.
-/

namespace Pb

open StateRun

variable {env : Env} {h₀ h h' : Heap} {R R' : Nat → List Nat} {b n : Nat} {o : Bool}
  {r₀ r r' : DataReader}

/-- Appends to `b` that keep its revision, and reads through a reader of `b`
that meet the condition `ok`, in any order. -/
inductive ReaderRun (env : Env) (b : Nat) (ok : DataReader → Heap → Prop) (r₀ : DataReader)
    (h₀ : Heap) : List (Cursor.Event UInt8) → DataReader → Heap → Prop where
  | nil : ReaderRun env b ok r₀ h₀ [] r₀ h₀
  | append {l r h h' op a} : ReaderRun env b ok r₀ h₀ l r h → Call env op a h h' →
      op.AppendsTo b → h'.revOf b = h.revOf b →
      ReaderRun env b ok r₀ h₀ (l ++ [.grow ((h'.content b).drop (h.content b).length)]) r h'
  | read {l r h n out r' h'} : ReaderRun env b ok r₀ h₀ l r h → ok r h →
      dataReaderRead env r n h = .ok ((out, r'), h') →
      ReaderRun env b ok r₀ h₀ (l ++ [.read n out]) r' h'

/-- What holds between the steps of such a run. -/
structure Tracks (env : Env) (b : Nat) (r : DataReader) (h : Heap) (R : Nat → List Nat)
    (p : Nat) : Prop where
  sound : Sound h R
  small : h.Small
  trivial : h.IsTrivial b
  buffer : r.buffer = b
  revision : r.bufferDataRevision = revisionValue (h.revOf b)
  place : r.At h (R b) p

theorem Sound.marked (s : Sound h R) (o : Bool) : Sound (h.marked o) R :=
  s.idle { Idle.refl h with } rfl rfl

theorem Heap.content_marked (h : Heap) (b : Nat) (o : Bool) :
    (h.marked o).content b = h.content b := rfl

/-- What a call that drops bytes from the front does to the content. -/
theorem Removes.dropped (s : Sound h R) (ht : h.IsTrivial b) {rejects : Bool} {len : Nat}
    (hk : Removes b h R len rejects (fun k => (h.flat (R b)).drop k) n h') :
    h'.content b = (h.content b).drop n ∧ n ≤ (h.content b).length ∧
      (rejects = false → n = min len (h.content b).length) := by
  have hb := ht.isSome
  obtain ⟨hle, hall, R', c, -⟩ := hk
  rw [← s.content hb] at hle hall
  refine ⟨?_, Nat.le_trans hle (Nat.min_le_right _ _), fun hrej => ?_⟩
  · rw [(s.became c).content (ht.congr c.frame.kind).isSome, c.content, s.content hb]
  · by_contra hn
    rw [hrej] at hall
    exact Bool.false_ne_true (hall hn)

/-- A new reader stands at the first byte. -/
theorem dataReaderCreate_spec (hr : Reachable env h₀) (ht : h₀.IsTrivial b)
    (hcreate : dataReaderCreate env b h₀ = .ok (some r, h)) :
    h = h₀.granted ∧ (∀ c, (h₀.buffers c).isSome → h.content c = h₀.content c) ∧
      ∃ R, Sound h R ∧ h.Small ∧ r.Rests h (R b) 0 ∧ r.buffer = b ∧
        r.bufferDataRevision = revisionValue (h.revOf b) := by
  obtain ⟨R, s⟩ := hr.sound
  have s' : Sound h₀.granted R := s.idle (Idle.granted h₀) rfl rfl
  have hsmall : h₀.granted.Small := ((s.fits hr.small).idle s.inv.core (Idle.granted h₀)).small
  unfold dataReaderCreate at hcreate
  rcases request_cases env h₀ with ⟨-, hreq⟩ | ⟨-, hreq⟩
  · rw [bind_run hreq] at hcreate
    dsimp only at hcreate
    have hbuf : (⟨b, 0, 0, 0⟩ : DataReader).buffer = b := rfl
    obtain ⟨r', hreset, hrests, hbuf', hrev⟩ :=
      dataReaderReset_run env s'.inv.core.links ht hbuf (s'.full b)
    rw [bind_run hreset] at hcreate
    cases hcreate
    refine ⟨rfl, fun c hc => ?_, R, s', hsmall, hrests, hbuf', hrev⟩
    rw [s'.content hc, s.content hc]
    rfl
  · rw [bind_run hreq] at hcreate
    cases hcreate

/-- A reader that tracks its buffer and is not parked reads as a cursor does. -/
theorem Tracks.read {p : Nat} (t : Tracks env b r h R p) (hp : ¬r.Parked h) (n : Nat) :
    Yields (dataReaderRead env r n) h (fun q h' => q.1 = ((h.content b).drop p).take n ∧
      h'.content b = h.content b ∧ Tracks env b q.2 h' R (p + q.1.length)) := by
  have hl := t.sound.inv.core.links
  refine (dataReaderRead_spec hl t.trivial t.sound.inv.core.views t.buffer (t.sound.full b)
    (.inr ⟨t.revision, t.place, hp⟩)).mono ?_
  rintro q _ ⟨⟨o, rfl⟩, hout, hrests, hbuf, hrev⟩
  refine ⟨by rw [hout, t.sound.content t.trivial.isSome], h.content_marked b o, ?_⟩
  exact ⟨t.sound.marked o, t.small, t.trivial, hbuf, hrev, hrests.at⟩

/-- An append that keeps the revision keeps the place. -/
theorem Tracks.append {p : Nat} {op : Op} {a : Ret} (t : Tracks env b r h R p)
    (c : Call env op a h h') (ha : op.AppendsTo b) (hrev : h'.revOf b = h.revOf b) :
    h.content b <+: h'.content b ∧ ∃ R', Tracks env b r h' R' p := by
  have hb := t.trivial.isSome
  have happ := (exec_append t.sound c.valid ha).of_run c.run (.inl c.small')
  obtain ⟨R', s', m⟩ := c.leads t.sound
  have hb' : (h'.buffers b).isSome := by
    rw [← h'.isSome_kindOf, happ.kind, h.isSome_kindOf]
    exact hb
  obtain ⟨-, -, st⟩ := m.stable hb' (t.sound.inv.core.links.buffer_fresh hb)
  obtain ⟨hpre, hsame, -⟩ := st hrev
  exact ⟨happ.content, R', s', c.small', s'.isTrivial hb', t.buffer, by rw [hrev]; exact t.revision,
    t.place.mono hpre hsame⟩

theorem ReaderRun.tracks {l : List (Cursor.Event UInt8)}
    (hrun : ReaderRun env b (fun r h => ¬r.Parked h) r₀ h₀ l r h) {R₀ : Nat → List Nat}
    (t₀ : Tracks env b r₀ h₀ R₀ 0) :
    ∃ R p, Tracks env b r h R p ∧ Cursor.Run (h₀.content b) 0 l (h.content b) p := by
  induction hrun with
  | nil => exact ⟨R₀, 0, t₀, .nil _ _⟩
  | append _ c ha hrev ih =>
      obtain ⟨R, p, t, hcur⟩ := ih
      obtain ⟨⟨u, hu⟩, R', t'⟩ := t.append c ha hrev
      refine ⟨R', p, t', ?_⟩
      rw [← hu, List.drop_left]
      exact .grow u hcur
  | read _ hp hrun ih =>
      obtain ⟨R, p, t, hcur⟩ := ih
      obtain ⟨hout, hcontent, t'⟩ := (t.read hp _).of_run hrun
      dsimp only at hout t'
      refine ⟨R, _, t', ?_⟩
      rw [hcontent, hout]
      exact .read _ hcur

/-- **A reader that is never parked when it reads** is a cursor: over any run
of appends and reads from its reset on, each read delivers what lies behind
the place reached, up to the end. A further read returns, and all reads
together have delivered the content up to the place. -/
theorem reader_tracks {l : List (Cursor.Event UInt8)} (hr : Reachable env h₀)
    (ht : h₀.IsTrivial b) (hbuf : r₀.buffer = b) (hreset : dataReaderReset env r₀ h₀ = .ok (r, h₀))
    (hrun : ReaderRun env b (fun r h => ¬r.Parked h) r h₀ l r' h) :
    ∃ p, Cursor.Run (h₀.content b) 0 l (h.content b) p ∧
      Cursor.delivered l = (h.content b).take p ∧
      ∀ n, ¬r'.Parked h → Yields (dataReaderRead env r' n) h (fun q h' =>
        q.1 = ((h.content b).drop p).take n ∧ h'.content b = h.content b) := by
  obtain ⟨R₀, s⟩ := hr.sound
  obtain ⟨r₁, hrun₁, hrests, hbuf', hrev⟩ :=
    dataReaderReset_run env s.inv.core.links ht hbuf (s.full b)
  rw [hreset] at hrun₁
  cases hrun₁
  obtain ⟨R, p, t, hcur⟩ := hrun.tracks ⟨s, hr.small, ht, hbuf', hrev, hrests.at⟩
  obtain ⟨-, -, hdel⟩ := hcur.delivered (Nat.zero_le _)
  refine ⟨p, hcur, by rw [hdel, List.drop_zero], fun n hp => ?_⟩
  exact (t.read hp n).mono fun _ _ hread => ⟨hread.1, hread.2.1⟩

/-! ## A parked reader -/

/-- The bytes `abc` in a new buffer under the address 1. -/
def Heap.abc : Heap :=
  (Heap.blank.withBuffer trivialBufferStrategy).after .generous (.writeData 1 [97, 98, 99])

/-- Then `defgh` behind them, on a page of its own. -/
def Heap.abcdefgh : Heap := Heap.abc.after .generous (.writeData 1 [100, 101, 102, 103, 104])

theorem reachable_abc : Reachable .generous .abc :=
  Reachable.after (reachable_blank.withBuffer (fun _ => rfl) _) ⟨_, rfl, rfl⟩ (by decide)
    (by decide)

theorem call_abcdefgh :
    Call .generous (.writeData 1 [100, 101, 102, 103, 104]) (.count 5) .abc .abcdefgh where
  valid := ⟨_, rfl, rfl⟩
  small := small_of_next (by decide)
  run := rfl
  small' := small_of_next (by decide)

theorem reader_tracks_abc :
    ∃ p, Cursor.Run (Heap.abc.content 1) 0 [.read 3 [97, 98, 99]] (Heap.abc.content 1) p ∧
      Cursor.delivered [.read 3 [97, 98, 99]] = (Heap.abc.content 1).take p ∧
      ∀ n, ¬(⟨1, 4, 1, 3⟩ : DataReader).Parked .abc →
        Yields (dataReaderRead .generous ⟨1, 4, 1, 3⟩ n) .abc (fun q h' =>
          q.1 = ((Heap.abc.content 1).drop p).take n ∧ h'.content 1 = Heap.abc.content 1) :=
  reader_tracks reachable_abc ⟨_, rfl, rfl⟩ rfl
    (show dataReaderReset .generous ⟨1, 0, 0, 0⟩ .abc = .ok (⟨1, 4, 1, 0⟩, .abc) from rfl)
    (.read .nil (by unfold DataReader.Parked; decide) rfl)

/-- The reader reads `abc`, `defgh` is appended, and the next read of five
bytes delivers `gh`. -/
theorem parked_reader_skips :
    Reachable .generous .abc ∧ Heap.abc.IsTrivial 1 ∧ ¬∀ l r r' h,
      dataReaderReset .generous ⟨1, 0, 0, 0⟩ .abc = .ok (r, .abc) →
      ReaderRun .generous 1 (fun _ _ => True) r .abc l r' h →
      ∃ p, Cursor.Run (Heap.abc.content 1) 0 l (h.content 1) p := by
  refine ⟨reachable_abc, ⟨_, rfl, rfl⟩, fun hlaw => ?_⟩
  have hrun : ReaderRun .generous 1 (fun _ _ => True) ⟨1, 4, 1, 0⟩ .abc
      [.read 3 [97, 98, 99], .grow [100, 101, 102, 103, 104], .read 5 [103, 104]]
      ⟨1, 7, 1, 5⟩ .abcdefgh :=
    .read (.append (.read .nil trivial rfl) call_abcdefgh rfl rfl) trivial rfl
  obtain ⟨p, hcur⟩ := hlaw _ _ _ _ rfl hrun
  obtain ⟨-, -, hdel⟩ := hcur.delivered (Nat.zero_le _)
  have hpre : [97, 98, 99, 103, 104] <+: Heap.abcdefgh.content 1 := by
    rw [List.drop_zero] at hdel
    show Cursor.delivered [.read 3 [97, 98, 99], .grow [100, 101, 102, 103, 104],
      .read 5 [103, 104]] <+: Heap.abcdefgh.content 1
    rw [hdel]
    exact List.take_prefix p _
  revert hpre
  decide

end Pb
