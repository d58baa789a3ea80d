import PageBuf.Invariant.MmapCreate
import PageBuf.Model.MmapSystem

/-!
# FileCalls — the calls that change a file and no page

`pb_mmap_buffer_write_data`, its siblings, `extend` and `reserve` act on the
file alone. Of the heap they move the counters, and where the buffer has no
bytes the first three bump its revision.
-/

namespace Pb

open StateRun Function

variable {env : Env} {h h' g : Heap} {R : Nat → List Nat} {F X : List Nat}
  {a b file head len : Nat} {fd : Fd} {bs : List UInt8}

/-! ## A change of one file -/

/-- The file has become `bytes`; besides, only counters have changed. -/
structure Filed (h h' : Heap) (file : Nat) (bytes : List UInt8) : Prop where
  idle : Idle (h.setFile file bytes) h'
  mem : h'.mem = h.mem

theorem Core.setFile (hc : Core h R F X) (file : Nat) (bytes : List UInt8) :
    Core (h.setFile file bytes) R F X where
  links := hc.links.congr rfl rfl (fun _ => rfl) (fun _ => rfl) (Nat.le_refl _)
  views := hc.views.congr rfl rfl (fun _ => rfl) (fun _ => rfl) (fun _ hs => hs)
  objs := hc.objs.congr rfl (fun hD => ⟨_, hD, rfl⟩) rfl (Nat.le_refl _) (fun _ => rfl)
  allocs := { hc.allocs with }
  writable := fun b hw p hp =>
    (hc.writable b (hw.congr rfl) p hp).congr rfl rfl (fun _ hs => hs)

theorem Filed.core (f : Filed h h' file bs) (hc : Core h R F X) : Core h' R F X :=
  (hc.setFile file bs).idle f.idle

theorem Filed.inv (f : Filed h h' file bs) (hb : h'.buffers = h.buffers) (hi : Inv h R) :
    Inv h' R where
  core := f.core hi.core
  totals := fun b B hB => by
    rw [Heap.lenOf_congr f.idle.pages]
    exact hi.totals b B (hb ▸ hB)

theorem Idle.setFile (i : Idle h g) (file : Nat) (bytes : List UInt8) :
    Idle (h.setFile file bytes) (g.setFile file bytes) :=
  { i with files := by simp only [Heap.setFile, i.files] }

theorem Filed.unchanged (i : Idle h g) (hm : g.mem = h.mem) (file : Nat) :
    Filed h g file (h.files file) where
  idle := { i with files := by simp [Heap.setFile, i.files] }
  mem := hm

theorem Filed.before (i : Idle h g) (hm : g.mem = h.mem) (f : Filed g h' file bs) :
    Filed h h' file bs where
  idle := (i.setFile file bs).trans f.idle
  mem := f.mem.trans hm

/-! ## Where the buffer stands -/

theorem Opened.isSome (ho : Opened h b a fd head) : (h.buffers b).isSome := by
  obtain ⟨B, hB, -⟩ := Option.map_eq_some_iff.mp ho.kind
  rw [hB]
  rfl

/-- The bytes of the buffer: those of its file from its head on. -/
theorem Opened.fileOf (ho : Opened h b a fd head) : h.fileOf b = h.files fd.file := by
  obtain ⟨B, hB, hk⟩ := Option.map_eq_some_iff.mp ho.kind
  obtain ⟨σ, o, rev, size⟩ := B
  cases hk
  obtain ⟨A, hA, hfd, -⟩ := ho.allocator
  simp [Heap.fileOf, Heap.mmapAllocatorOf, hB, hA, hfd]

theorem Opened.fileHead (ho : Opened h b a fd head) : h.fileHead b = head := by
  obtain ⟨B, hB, hk⟩ := Option.map_eq_some_iff.mp ho.kind
  obtain ⟨σ, o, rev, size⟩ := B
  cases hk
  obtain ⟨A, hA, -, hhead⟩ := ho.allocator
  simp [Heap.fileHead, Heap.mmapAllocatorOf, hB, hA, hhead]

theorem Opened.idle (ho : Opened h b a fd head) (i : Idle h g) : Opened g b a fd head where
  kind := by rw [i.kind, ho.kind]
  allocator := by rw [i.mmapAllocators]; exact ho.allocator
  head := by rw [i.files]; exact ho.head

/-- The buffer stands in the changed file as before. -/
theorem Opened.filed (ho : Opened h b a fd head) (f : Filed h h' fd.file bs)
    (hle : head ≤ bs.length) : Opened h' b a fd head := by
  have hset : Opened (h.setFile fd.file bs) b a fd head :=
    { kind := ho.kind, allocator := ho.allocator, head := by simpa [Heap.setFile] using hle }
  exact hset.idle f.idle

theorem bufferGetDataSize_mmap (hos : env.SystemGrants) (ho : Opened h b a fd head) :
    bufferGetDataSize env b h = .ok ((h.files fd.file).length - head, h.granted) := by
  obtain ⟨B, hB, hk⟩ := Option.map_eq_some_iff.mp ho.kind
  obtain ⟨A, hA, hfd, hhead⟩ := ho.allocator
  have hle := ho.head
  refine (bind_run (getBuffer_run hB)).trans ?_
  rw [(Prod.mk.inj hk).2, ← hhead]
  exact mmapAllocatorGetDataSize_run hos hA hfd (by omega)

/-! ## The bump before a write -/

/-- A buffer without bytes has its revision bumped before the first ones come. -/
theorem bumpIfEmpty_run {β : Type} (hos : env.SystemGrants) (ho : Opened h b a fd head)
    (f : PbM β) : ∃ h₁,
      (do
        if (← bufferGetDataSize env b) = 0 then trivialBufferIncrementDataRevision b else pure ()
        f : PbM β) h = f h₁ ∧
      Idle h h₁ ∧ h₁.mem = h.mem ∧ (∀ {R}, Totals h R → Totals h₁ R) ∧
      h₁.revOf b = h.revOf b + if (h.files fd.file).length = head then 1 else 0 := by
  obtain ⟨B, hB, -⟩ := Option.map_eq_some_iff.mp ho.kind
  have hgranted : h.granted.buffers b = some B := hB
  have hle := ho.head
  by_cases hempty : (h.files fd.file).length = head
  · refine ⟨h.granted.bump b B 1, ?_, (Idle.granted h).trans (Idle.bump hgranted 1), rfl,
      fun ht => ht.bump hgranted 1, ?_⟩
    · refine (bind_run (bufferGetDataSize_mmap hos ho)).trans ?_
      rw [hempty, Nat.sub_self, if_pos rfl]
      exact bind_run (modifyBuffer_run hgranted _)
    · have hbump : (h.granted.bump b B 1).buffers b
          = some { B with dataRevision := B.dataRevision + 1 } := update_self _ _ _
      rw [if_pos hempty, Heap.revOf_eq hB, Heap.revOf_eq hbump]
  · refine ⟨h.granted, ?_, Idle.granted h, rfl, fun ht => ht, ?_⟩
    · refine (bind_run (bufferGetDataSize_mmap hos ho)).trans ?_
      rw [if_neg (by omega)]
    · rw [if_neg hempty]
      rfl

/-! ## Writing -/

/-- `write` takes all the bytes. -/
theorem writeFile_run (hs : env.Succeeds) (hw : fd.writable = true) (bs : List UInt8) :
    ∃ h', writeFile env fd bs h = .ok (some bs.length, h') ∧ h'.buffers = h.buffers ∧
      Filed h h' fd.file (h.files fd.file ++ bs) := by
  refine ⟨{ h.setFile fd.file (h.files fd.file ++ bs) with calls := h.calls + 1 }, ?_, rfl, ?_⟩
  · unfold writeFile
    rw [hs.system, hw, hs.writes, Nat.min_self]
    simp
  · exact ⟨{ Idle.refl _ with }, rfl⟩

/-- `write` takes all the bytes, or none of a file that was opened for reading. -/
theorem writeFile_appends (hs : env.Succeeds) (fd : Fd) (bs : List UInt8) (h : Heap) :
    ∃ o h', writeFile env fd bs h = .ok (o, h') ∧
      o.getD 0 = (if fd.writable then bs.length else 0) ∧ h'.buffers = h.buffers ∧
      Filed h h' fd.file (h.files fd.file ++ if fd.writable then bs else []) := by
  by_cases hw : fd.writable = true
  · obtain ⟨h', hrun, hbuffers, f⟩ := writeFile_run (h := h) hs hw bs
    simp only [hw, if_true]
    exact ⟨some bs.length, h', hrun, rfl, hbuffers, f⟩
  · have hrefuse : writeFile env fd bs h = .ok (none, { h with calls := h.calls + 1 }) := by
      unfold writeFile
      simp [hw]
    have i : Idle h { h with calls := h.calls + 1 } := { Idle.refl h with }
    refine ⟨none, _, hrefuse, by simp [hw], rfl, ?_⟩
    simp only [hw, Bool.false_eq_true, if_false, List.append_nil]
    exact .unchanged i rfl _

end Pb
