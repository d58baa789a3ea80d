import PageBuf.Client.MapCounts
import PageBuf.Client.Waking
import PageBuf.Readers.Resting
import PageBuf.Readers.Termination

/-!
# FirstBytes — out of the empty state

A reader that waits at the end of an empty buffer must start over once there are
bytes, so the first bytes have to move the revision. In the trivial class every
way to add bytes goes through one function that does. In the mmap class the
writes do, each for itself, and `extend` and `reserve` do not.
-/

namespace Pb

open StateRun Function

variable {env : Env} {h h' : Heap} {R R' : Nat → List Nat} {a b head it : Nat} {fd : Fd}

/-! ## Trivial buffers -/

/-- A trivial buffer among trivial buffers. -/
structure AmongTrivial (b : Nat) (h : Heap) : Prop where
  small : h.Small
  sound : ∃ R, Sound h R
  trivial : h.IsTrivial b

theorem Sound.keeps {target : Option Nat} (s : Sound h R) (s' : Sound h' R') (hsmall : h'.Small)
    (ht : h.IsTrivial b) (hb : (h'.buffers b).isSome) (m : Moved target h h' R R') :
    Keeps b (AmongTrivial b) (fun h => h.content b = []) h h' := by
  obtain ⟨-, hle, st⟩ := m.stable hb (s.inv.core.links.buffer_fresh ht.isSome)
  refine ⟨⟨hsmall, ⟨R', s'⟩, s'.isTrivial hb⟩, hle, fun hrev hnil => ?_⟩
  by_contra hne
  have hgrown := (st.grows s s' ht.isSome hb hrev).revision
  rw [if_pos ⟨hnil, hne⟩] at hgrown
  omega

theorem AmongTrivial.call (i : AmongTrivial b h) (c : EveryCall env h h')
    (hb : (h'.buffers b).isSome) : Keeps b (AmongTrivial b) (fun h => h.content b = []) h h' := by
  obtain ⟨R, s⟩ := i.sound
  obtain ⟨hsmall, R', target, s', m⟩ := c.leads s
  exact s.keeps s' hsmall i.trivial hb m

/-- An iterator that comes to the end right away. -/
theorem Sound.nil_of_end (s : Sound h R) (ht : h.IsTrivial b) (hnil : R b = []) :
    h.content b = [] := by
  rw [s.content ht.isSome, hnil]
  rfl

theorem trivial_iterates (env : Env) (b : Nat) :
    Iterates env b (AmongTrivial b) (fun h => h.content b = []) where
  alive := fun i => i.trivial.isSome
  marked := fun {h} o i => by
    obtain ⟨R, s⟩ := i.sound
    exact ⟨⟨i.small, ⟨R, s.marked o⟩, i.trivial⟩, Nat.le_refl _, fun _ hnil => hnil⟩
  granted := fun {h} i => by
    obtain ⟨R, s⟩ := i.sound
    have hsmall : h.granted.Small :=
      ((s.fits i.small).idle s.inv.core (Idle.granted h)).small
    exact ⟨⟨hsmall, ⟨R, s.idle (Idle.granted h) rfl rfl⟩, i.trivial⟩, Nat.le_refl _, fun _ hnil => by
      rw [s.content i.trivial.isSome] at hnil
      rw [(s.idle (Idle.granted h) rfl rfl).content i.trivial.isSome]
      exact hnil⟩
  dataSize := fun {h} i => by
    obtain ⟨R, s⟩ := i.sound
    obtain ⟨B, hB, hop⟩ := id i.trivial
    refine Returns.of_run (bufferGetDataSize_run s.inv hB hop) ⟨.refl i, fun hne hnil => hne ?_⟩
    rw [s.content i.trivial.isSome] at hnil
    rw [s.inv.totals b B hB, ← Heap.length_flat, hnil]
    rfl
  getIterator := fun {h} i => by
    obtain ⟨R, s⟩ := i.sound
    have hl := s.inv.core.links
    refine Returns.of_run (bufferGetIterator_run i.trivial hl) ⟨.refl i, fun hend => ?_⟩
    exact s.nil_of_end i.trivial ((hl.headD_eq_self_iff i.trivial.isSome).mp hend)
  nextIterator := fun {h} it i => by
    obtain ⟨B, hB, hop⟩ := id i.trivial
    refine Returns.step (getBuffer_run hB) ?_
    rw [hop]
    refine returns_getPage fun P _ => ?_
    cases P.next with
    | none => exact Returns.throw
    | some p => exact Returns.pure (.refl i)
  prevIterator := fun {h} i => by
    obtain ⟨R, s⟩ := i.sound
    have hl := s.inv.core.links
    refine Returns.of_run (bufferPrevIterator_end i.trivial hl) ⟨.refl i, fun hend => ?_⟩
    exact s.nil_of_end i.trivial ((hl.getLastD_eq_iff i.trivial.isSome).mp hend)
  seek := fun {h} n i => by
    obtain ⟨R, s⟩ := i.sound
    obtain ⟨B, hB, hop⟩ := id i.trivial
    have hfits := s.fits i.small
    refine Returns.step (getBuffer_run hB) ?_
    rw [hop]
    refine (trivialBufferSeek_spec s.inv hfits (s.full b) hB hop n).returns.mono fun k h' hk => ?_
    obtain ⟨-, -, R', c, st⟩ := hk
    have hb : (h'.buffers b).isSome := by
      rw [Heap.buffers_isSome_congr c.frame.kind]
      exact i.trivial.isSome
    exact s.keeps (s.became c) (c.fits hfits).small i.trivial hb (.of_frame c.frame st)

/-! ## An mmap buffer -/

/-- An mmap buffer over its file, with no other buffers. -/
structure OverFile (b a : Nat) (fd : Fd) (h : Heap) : Prop where
  owns : Owns h b a
  standing : ∃ head, Standing h b a fd head

/-- A page that is there is a place of the only buffer. -/
theorem Standing.isPlaceOf {p : Nat} (st : Standing h b a fd head) (hp : (h.pages p).isSome) :
    h.IsPlaceOf b p := by
  rcases st with ⟨ks, ⟨R, m⟩, -⟩ | br
  · rcases (m.inv.core.links.live p).mp hp with hb | ⟨e, he⟩ | hF
    · left
      by_contra hne
      rw [m.alone p hne] at hb
      cases hb
    · right
      have heb : e = b := by
        by_contra hne
        rw [m.inv.core.links.dead (m.alone e hne)] at he
        cases he
      rw [m.pagesOf, ← m.ring, ← heb]
      exact he
    · cases hF
  · obtain ⟨X, d, t, -⟩ := br.torn
    rcases (t.pages p).mp hp with hb | hk
    · exact .inl hb
    · cases hk

theorem Standing.marked (st : Standing h b a fd head) (o : Bool) :
    Standing (h.marked o) b a fd head := by
  rcases st with ⟨ks, w⟩ | br
  · exact .inl ⟨ks, w.marked o⟩
  · have i : Idle h (h.marked o) := { Idle.refl h with }
    exact .inr (br.filed (.unchanged i rfl _) br.opened.head)

theorem Standing.granted (st : Standing h b a fd head) : Standing h.granted b a fd head := by
  rcases st with ⟨ks, w⟩ | br
  · exact .inl ⟨ks, w.granted⟩
  · exact .inr br.granted

theorem Standing.fileContent (st : Standing h b a fd head)
    (hle : (h.files fd.file).length ≤ head) : h.fileContent b = [] := by
  rw [st.opened.fileContent, List.drop_eq_nil_iff]
  exact hle

namespace OverFile

variable (i : OverFile b a fd h)

include i

theorem isSome : (h.buffers b).isSome := by
  obtain ⟨head, st⟩ := i.standing
  obtain ⟨B, hB, -⟩ := st.opened.getBuffer
  rw [hB]
  rfl

theorem keeps (w : Wakes b a h h') (hst : ∃ head, Standing h' b a fd head) :
    Keeps b (OverFile b a fd) (fun h => h.fileContent b = []) h h' := by
  have i' : OverFile b a fd h' := ⟨i.owns.stays w.toStays, hst⟩
  obtain ⟨B', hB'⟩ := Option.isSome_iff_exists.mp i'.isSome
  obtain ⟨B, hB, -, hle⟩ := w.buffer i.owns.buffer hB'
  rw [← Heap.revOf_eq hB, ← Heap.revOf_eq hB'] at hle
  refine ⟨i', hle, fun hrev hnil => ?_⟩
  rw [Heap.revOf_eq hB, Heap.revOf_eq hB'] at hrev
  rw [← i.owns.vacant_iff i.isSome] at hnil
  rw [← i'.owns.vacant_iff i'.isSome]
  exact w.vacant i.owns.buffer i.owns.allocator hB hB' hrev hnil

/-- **A call that does not extend the empty buffer.** -/
theorem call {op : MmapOp} {r : MmapRet} (hs : env.Succeeds) (hv : op.Valid h b)
    (hok : ¬op.ExtendsEmpty h b) (hexec : execMmap env b op h = .ok (r, h'))
    (hb : (h'.buffers b).isSome) :
    Keeps b (OverFile b a fd) (fun h => h.fileContent b = []) h h' := by
  obtain ⟨head, st⟩ := i.standing
  refine i.keeps (wakes_execMmap i.owns hok r h' hexec) ?_
  rcases st.step hs hv r h' hexec with hnone | ⟨head', hm⟩
  · rw [hnone] at hb
    cases hb
  · exact ⟨head', hm.standing⟩

/-- What is called by itself. -/
theorem part {α : Type} {m : PbM α} (op : MmapOp) (f : α → MmapRet) (hs : env.Succeeds)
    (hop : execMmap env b op = do return f (← m)) (hv : op.Valid h b)
    (hok : ¬op.ExtendsEmpty h b) (hd : op ≠ .destroy) : Returns m h
      (fun _ h' => Keeps b (OverFile b a fd) (fun h => h.fileContent b = []) h h') := by
  intro x h' hrun
  have hexec : execMmap env b op h = .ok (f x, h') := by
    rw [hop]
    exact (bind_run hrun).trans rfl
  obtain ⟨head, st⟩ := i.standing
  obtain ⟨head', hm⟩ := st.calls hs hv hd _ _ hexec
  exact i.keeps (wakes_execMmap i.owns hok _ h' hexec) ⟨head', hm.standing⟩

end OverFile

/-- A window with pages lies between the head and the end of the file. -/
theorem Window.spans {k : Block} {l : List Block} (w : Window h b a fd head (k :: l)) :
    head ≤ k.start ∧ k.start < stopOf (k :: l) head ∧
      stopOf (k :: l) head ≤ (h.files fd.file).length := by
  obtain ⟨R, m⟩ := w.maps
  have hfirst := m.first
  have hlt := (m.stretch.fits k List.mem_cons_self).start
  have hle := m.stretch.stop_le List.mem_cons_self head
  rw [startOf_cons] at hfirst
  exact ⟨by omega, Nat.lt_of_lt_of_le hlt hle, m.stretch.stop_le_size m.opened.head⟩

/-- The first iterator is the end only where nothing is behind the head. -/
theorem Standing.getIterator_end (st : Standing h b a fd head) (hs : env.Succeeds)
    (hw : fd.writable = true) :
    Returns (bufferGetIterator env b) h (fun it h' => it = b → h'.fileContent b = []) := by
  rcases st with ⟨ks, w⟩ | br
  · refine (w.getIterator hs).returns.mono fun it h' hpost hend => ?_
    obtain ⟨ht, ks', w', -, -, hp⟩ := hpost
    refine Standing.fileContent (.inl ⟨ks', w'⟩) ?_
    rw [ht.files]
    rw [if_pos hw] at hp
    rcases beginsAt_iff.mp hp with ⟨k, hk, rfl, -⟩ | ⟨-, hstart⟩
    · exact absurd hend (w'.page_ne hk)
    · cases ks with
      | nil => exact Nat.le_of_eq hstart.symm
      | cons k l =>
          have hspan := w.spans
          rw [startOf_cons] at hstart
          omega
  · refine (br.getIterator hs).mono fun it h' hpost _ => ?_
    obtain ⟨-, rfl, hle⟩ := hpost
    exact Standing.fileContent (.inr br.granted) hle

/-- So is the last one. -/
theorem Standing.prevIterator_end (st : Standing h b a fd head) (hs : env.Succeeds)
    (hw : fd.writable = true) :
    Returns (bufferPrevIterator env b b) h (fun it h' => it = b → h'.fileContent b = []) := by
  rcases st with ⟨ks, w⟩ | br
  · refine (w.prevIterator_end hs).returns.mono fun it h' hpost hend => ?_
    obtain ⟨ht, ks', w', hp⟩ := hpost
    refine Standing.fileContent (.inl ⟨ks', w'⟩) ?_
    rw [ht.files]
    rw [if_pos hw] at hp
    rcases endsAt_iff.mp hp with ⟨k, hk, rfl, -⟩ | ⟨-, hstop⟩
    · exact absurd hend (w'.page_ne hk)
    · cases ks with
      | nil => exact Nat.le_of_eq hstop
      | cons k l =>
          have hspan := w.spans
          rw [if_neg (List.cons_ne_nil k l)] at hstop
          omega
  · refine (br.prevIterator hs).mono fun it h' hpost _ => ?_
    obtain ⟨-, rfl, hle⟩ := hpost
    exact Standing.fileContent (.inr br.granted) hle

theorem mmap_iterates (hs : env.Succeeds) (hw : fd.writable = true) :
    Iterates env b (OverFile b a fd) (fun h => h.fileContent b = []) where
  alive := fun i => i.isSome
  marked := fun {h} o i => by
    obtain ⟨head, st⟩ := i.standing
    exact i.keeps (.of_rest (Nat.le_refl _) rfl rfl fun _ => rfl) ⟨head, st.marked o⟩
  granted := fun {h} i => by
    obtain ⟨head, st⟩ := i.standing
    exact i.keeps (.of_rest (Nat.le_succ _) rfl rfl fun _ => rfl) ⟨head, st.granted⟩
  dataSize := fun {h} i => by
    have hk := i.part .getDataSize .count hs rfl i.isSome id (by simp)
    refine (hk.and (returns_dataSize i.owns)).mono fun n h' hpost => ⟨hpost.1, fun hne hnil => ?_⟩
    exact hpost.2.2 hne ((i.owns.vacant_iff i.isSome).mpr hnil)
  getIterator := fun {h} i => by
    obtain ⟨head, st⟩ := id i.standing
    exact (i.part .getIterator .iterator hs rfl i.isSome id (by simp)).and
      (st.getIterator_end hs hw)
  nextIterator := fun {h} it i => by
    obtain ⟨head, st⟩ := id i.standing
    by_cases hlive : (h.pages it).isSome
    · exact i.part (.nextIterator it) .iterator hs rfl
        ⟨i.isSome, st.isPlaceOf hlive⟩ id (by simp)
    · -- there is no page to step from
      obtain ⟨B, hB, hop⟩ := st.opened.getBuffer
      have hfault : getPage it h = .error .dangling := by
        simp [getPage, Option.not_isSome_iff_eq_none.mp hlive]
      refine Returns.step (getBuffer_run hB) ?_
      rw [hop]
      exact Returns.stuck (bind_fails hfault)
  prevIterator := fun {h} i => by
    obtain ⟨head, st⟩ := id i.standing
    exact (i.part (.prevIterator b) .iterator hs rfl ⟨i.isSome, .inl rfl⟩ id
      (by simp)).and (st.prevIterator_end hs hw)
  seek := fun {h} n i => i.part (.seek n) .count hs rfl i.isSome id (by simp)

/-! ## An mmap buffer among any calls -/

section Reader

variable {r : LineReader}

theorem wakes_bufferGetDataRevision {c : Nat} : Within (Wakes b a) (bufferGetDataRevision c) :=
  within_getBuffer.bind fun _ => .pure

theorem wakes_lineReaderReset : Within (Wakes b a) (lineReaderReset env r) :=
  wakes_bufferGetByteIterator.bind fun _ => wakes_bufferGetDataRevision.bind fun _ => .pure

theorem wakes_lineReaderSync : Within (Wakes b a) (lineReaderSync env r) :=
  wakes_bufferGetDataRevision.bind fun _ => .ite wakes_lineReaderReset .pure

theorem wakes_lineReaderHasLine : Within (Wakes b a) (lineReaderHasLine env r) := by
  have hround : ∀ r, Within (Wakes b a) (hasLineRound env r) := fun r =>
    .ite .pure <| wakes_byteIteratorGetCurrentByte.bind fun _ => .ite .pure <| .ite .pure <|
      wakes_bufferNextByteIterator.bind fun _ => .pure
  refine wakes_lineReaderSync.bind fun r₁ => .ite .pure <| within_bufferGetDataSize.bind fun n =>
    .ite .pure <| within_get.bind fun h => .bind (.loop hround _ _) fun q => .ite .pure ?_
  exact wakes_bufferPrevByteIterator.bind fun _ => .ite .pure <| .ite .pure .pure

theorem wakes_lineReaderGetLineLen : Within (Wakes b a) (lineReaderGetLineLen env r) :=
  wakes_lineReaderSync.bind fun _ => .ite .pure <| .ite .pure .pure

theorem wakes_lineReaderGetLineData {n : Nat} :
    Within (Wakes b a) (lineReaderGetLineData env r n) :=
  wakes_lineReaderSync.bind fun _ => .ite .pure <| wakes_lineReaderGetLineLen.bind fun _ =>
    wakes_bufferGetIterator.bind fun _ => within_get.bind fun _ =>
      .bind (.loop (fun _ => .ite .pure <| within_getPage.bind fun _ => within_memRead.bind fun _ =>
        wakes_bufferNextIterator.bind fun _ => .pure) _ _) fun _ => .pure

theorem lineReaderSync_buffer : Returns (lineReaderSync env r) h
    (fun r' _ => r'.buffer = r.buffer) := by
  refine Returns.bind (P := fun _ _ => True) (fun _ _ _ => trivial) fun _ h₁ _ => ?_
  split
  · exact Returns.bind (P := fun _ _ => True) (fun _ _ _ => trivial) fun _ _ _ =>
      Returns.bind (P := fun _ _ => True) (fun _ _ _ => trivial) fun _ _ _ => Returns.pure rfl
  · exact Returns.pure rfl

/-- **A call of a reader.** Only its seek moves the head, and with it the revision. -/
theorem wakes_execLine (o : Owns h b a) (hbuf : r.buffer = b) (op : LineOp) :
    Returns (execLine env op r) h (fun _ h' => Wakes b a h h') := by
  cases op with
  | hasLine => exact Within.bind wakes_lineReaderHasLine (fun _ => .pure) h
  | getLineLen => exact Within.bind wakes_lineReaderGetLineLen (fun _ => .pure) h
  | getLineData n => exact Within.bind wakes_lineReaderGetLineData (fun _ => .pure) h
  | terminateLine => exact Returns.pure (.refl b a h)
  | terminateLineCheckCr => exact Returns.pure (.refl b a h)
  | reset => exact wakes_lineReaderReset h
  | seekLine =>
      have hsync : Within (Wakes b a) (lineReaderSync env r) := wakes_lineReaderSync
      refine Returns.bind (P := fun _ h' => Wakes b a h h') ?_ fun _ _ w => Returns.pure w
      refine Returns.bind ((hsync h).and lineReaderSync_buffer) fun r₁ h₁ hpost => ?_
      obtain ⟨w, hbuf₁⟩ := hpost
      split
      · exact Returns.pure w
      · rw [hbuf₁, hbuf]
        have hseek : Returns (execMmap env b (.seek r₁.toSeek)) h₁ (fun _ h' => Wakes b a h₁ h') :=
          wakes_execMmap (o.stays w.toStays) id
        have hreset : Within (Wakes b a) (lineReaderReset env r₁) := wakes_lineReaderReset
        refine Returns.bind (P := fun _ h' => Wakes b a h₁ h') ?_ fun n h₂ w₂ => ?_
        · exact fun n h₂ hrun => hseek (.count n) h₂ ((bind_run hrun).trans rfl)
        · refine Returns.bind (hreset h₂) fun r₂ h₃ w₃ => Returns.pure ?_
          exact w.trans (w₂.trans w₃)

end Reader

/-- A call on the mmap buffer `b` by a client who keeps to `M`, a write to it from another buffer,
a call of a reader of it, or a call on trivial buffers. What the mmap class inherits of the trivial
class is called on `b` in the same way. -/
inductive MixedStep (env : Env) (M : Heap → MmapOp → Prop) (b : Nat) (h h' : Heap) : Prop where
  | mmap {op : MmapOp} {r : MmapRet} : M h op → execMmap env b op h = .ok (r, h') →
      MixedStep env M b h h'
  | writeBuffer {src len n : Nat} : bufferWriteBuffer env b src len h = .ok (n, h') →
      MixedStep env M b h h'
  | perform {x : Action} {r : Ret} : perform env x h = .ok (r, h') → MixedStep env M b h h'
  | read {op : LineOp} {r r' : LineReader} : r.buffer = b →
      execLine env op r h = .ok (r', h') → MixedStep env M b h h'

/-- `extend` and `reserve` bring no first bytes. -/
def NeverExtendsEmpty (b : Nat) (h : Heap) (op : MmapOp) : Prop := ¬op.ExtendsEmpty h b

theorem Owns.mixed (o : Owns h b a) (hstep : MixedStep env (NeverExtendsEmpty b) b h h') :
    Wakes b a h h' := by
  cases hstep with
  | mmap hok hexec => exact wakes_execMmap o hok _ _ hexec
  | writeBuffer hrun => exact wakes_bufferWriteBuffer o _ _ _ _ hrun
  | perform hrun => exact wakes_perform _ _ _ _ hrun
  | read hbuf hexec => exact wakes_execLine o hbuf _ _ _ hexec

theorem Owns.run (o : Owns h b a)
    (hrun : Relation.ReflTransGen (MixedStep env (NeverExtendsEmpty b) b) h h') :
    Wakes b a h h' := by
  induction hrun with
  | refl => exact .refl b a h
  | tail _ hstep w => exact w.trans ((o.stays w.toStays).mixed hstep)

theorem returns_modifyMmapAllocator_next {c : Nat} {f : MmapAllocator → MmapAllocator} :
    Returns (modifyMmapAllocator c f) h (fun _ h' => h'.next = h.next) :=
  returns_getMmapAllocator fun _ _ => Returns.of_run (modify_run _) rfl

/-- The allocator of a new mmap buffer. -/
theorem returns_mmapAllocatorCreate {file : Nat} {openAction : MmapOpenAction}
    {closeAction : MmapCloseAction} : Returns (mmapAllocatorCreate env file openAction closeAction)
      h (fun o h' => ∀ a, o = some a → a < h'.next) := by
  have hnone : ∀ {h' : Heap}, ∀ a, (none : Option Nat) = some a → a < h'.next := fun _ ha => by
    cases ha
  unfold mmapAllocatorCreate
  refine Returns.bind (returns_request env h) fun r h₁ hpost => ?_
  obtain ⟨-, hr⟩ := hpost
  cases r with
  | none => exact Returns.pure hnone
  | some a =>
      obtain ⟨rfl, hnext⟩ := hr a rfl
      refine Returns.step (modify_run _) (Returns.bind (returns_request env _) fun r h₂ hpost => ?_)
      have hle := hpost.1.next
      simp only [Heap.setMmapAllocator] at hle
      cases r with
      | none =>
          exact Returns.bind (P := fun _ _ => True) (fun _ _ _ => trivial) fun _ _ _ =>
            Returns.pure hnone
      | some _ =>
          have hask : Within (Wakes 0 0) (osRequest env) := within_osRequest
          refine Returns.bind (hask h₂) fun r h₃ w => ?_
          have hlt := w.next
          have hopen : ∀ (fileFd : Option Fd) (g : Heap), g.next = h₃.next → Returns (do
              modifyMmapAllocator h.next (fun A => { A with
                fileFd := fileFd, fileHeadOffset := 0, closeAction := closeAction })
              pure (some h.next)) g (fun o h' => ∀ a, o = some a → a < h'.next) := by
            intro fileFd g hg
            refine Returns.bind returns_modifyMmapAllocator_next fun _ h₄ heq => Returns.pure ?_
            rintro _ ⟨⟩
            omega
          cases r with
          | none => exact Returns.pure_bind (hopen none h₃ rfl)
          | some _ =>
              dsimp only
              split
              · exact Returns.step (modify_run _) (Returns.pure_bind (hopen _ _ rfl))
              · exact Returns.pure_bind (hopen _ _ rfl)

theorem owns_created {file : Nat} {openAction : MmapOpenAction} {closeAction : MmapCloseAction} :
    Returns (mmapBufferCreate env file openAction closeAction) h
      (fun o h' => ∀ b, o = some b → ∃ a, Owns h' b a) := by
  have hnone : ∀ {h' : Heap}, ∀ b, (none : Option Nat) = some b → ∃ a, Owns h' b a := fun _ hb => by
    cases hb
  refine Returns.bind returns_mmapAllocatorCreate fun r h₁ ha => ?_
  cases r with
  | none => exact Returns.pure hnone
  | some a =>
      have ha := ha a rfl
      refine Returns.bind (returns_request env h₁) fun r h₂ hpost => ?_
      obtain ⟨hstill, hr⟩ := hpost
      cases r with
      | none =>
          exact Returns.bind (P := fun _ _ => True) (fun _ _ _ => trivial) fun _ _ _ =>
            Returns.pure hnone
      | some b =>
          obtain ⟨rfl, hnext⟩ := hr b rfl
          refine Returns.step (modify_run _) (Returns.step (modify_run _) (Returns.pure ?_))
          rintro _ ⟨⟩
          have hlt : h₁.next < h₂.next := by omega
          refine ⟨a, hlt, Nat.lt_trans ha hlt, fun hB => ?_⟩
          simp only [Heap.setBuffer, update_self] at hB
          cases hB
          rfl

theorem MmapReachable.overFile {openAction : MmapOpenAction}
    (hr : MmapReachable env openAction (NeverExtendsEmpty b) b h) (hs : env.Succeeds)
    (hb : (h.buffers b).isSome) : ∃ a file, OverFile b a ⟨file, openAction ≠ .read⟩ h := by
  have hstand := hr.standing hs hb
  obtain ⟨mem, callerLen, files, file, closeAction, h₀, hcreate, hrun⟩ := hr
  obtain ⟨a, o⟩ := owns_created _ _ hcreate b rfl
  have hmixed : Relation.ReflTransGen (MixedStep env (NeverExtendsEmpty b) b) h₀ h := by
    refine Relation.ReflTransGen.mono (fun g g' hstep => ?_) _ _ hrun
    obtain ⟨op, r, -, hok, hexec⟩ := hstep
    exact .mmap hok hexec
  have o' := o.stays (o.run hmixed).toStays
  obtain ⟨a', file', head, st⟩ := hstand
  obtain ⟨B, hB, hop⟩ := st.opened.getBuffer
  obtain rfl : a' = a := by
    rw [o'.operations hB] at hop
    cases hop
    rfl
  exact ⟨a', file', o', head, st⟩

/-! ## Out of the empty state -/

/-- In every run from `h` on, in which the mmap buffer `b` is called as `M` has it: once it has left
the empty state its revision shows that. -/
def MixedLaw (env : Env) (M : Heap → MmapOp → Prop) (b : Nat) (h : Heap) : Prop :=
  ∀ h' h'', Relation.ReflTransGen (MixedStep env M b) h h' →
    Relation.ReflTransGen (MixedStep env M b) h' h'' →
    (h''.buffers b).isSome → h''.revOf b < h'.revOf b + 2 ^ 64 →
    h'.fileContent b = [] → h''.fileContent b ≠ [] → LeavesEmpty env b h' h''

theorem Owns.mixedLaw (o : Owns h b a) : MixedLaw env (NeverExtendsEmpty b) b h := by
  intro h' h'' hrun hrun' hb hlt hnil hne
  have o' := o.stays (o.run hrun).toStays
  have w := o'.run hrun'
  obtain ⟨B'', hB''⟩ := Option.isSome_iff_exists.mp hb
  obtain ⟨B', hB', -, hle⟩ := w.buffer o'.buffer hB''
  refine leavesEmpty_of_lt hb ?_ hlt
  rw [Heap.revOf_eq hB', Heap.revOf_eq hB'']
  by_contra hge
  have hv := (o'.vacant_iff (by rw [hB']; rfl)).mpr hnil
  refine hne (((o'.stays w.toStays).vacant_iff hb).mp ?_)
  exact w.vacant o'.buffer o'.allocator hB' hB'' (by omega) hv

theorem reachable_emptyFile {M : Heap → MmapOp → Prop} :
    MmapReachable .generous .append M 3 (.zeroFile 0) :=
  ⟨_, _, _, 0, .retain, _, mmapBufferCreate_run succeeds_generous, .refl⟩

end Pb
