import PageBuf.Lib.Yields

/-!
# Returns — partial correctness for stateful programs that may fault

`Returns m s Q` says that if the program returns from `s`, then what it
returns satisfies `Q`; of a fault it says nothing. What has to hold of every
run, also of one that has already gone wrong elsewhere, is stated this way: no
rule asks that an object exists before it is used. The rules follow those of
`Yields`.
-/

namespace StateRun

variable {σ ε α β ρ : Type} {m : StateT σ (Except ε) α} {f : α → StateT σ (Except ε) β}
  {s s' : σ} {a : α} {P P' : α → σ → Prop} {Q : β → σ → Prop}

/-- If the program returns from `s`, what it returns satisfies `P`. -/
def Returns (m : StateT σ (Except ε) α) (s : σ) (P : α → σ → Prop) : Prop :=
  ∀ a s', m s = .ok (a, s') → P a s'

theorem Yields.returns (h : Yields m s P) : Returns m s P :=
  fun _ _ hr => h.of_run hr

theorem Returns.mono (h : Returns m s P) (hpp : ∀ a s', P a s' → P' a s') : Returns m s P' :=
  fun a s' hr => hpp a s' (h a s' hr)

theorem Returns.and (h : Returns m s P) (h' : Returns m s P') :
    Returns m s (fun a s' => P a s' ∧ P' a s') :=
  fun a s' hr => ⟨h a s' hr, h' a s' hr⟩

/-- A program that runs as another one does, perhaps from another state. -/
theorem Returns.of_eq {m' : StateT σ (Except ε) α} {t : σ} (he : m s = m' t)
    (h : Returns m' t P) : Returns m s P :=
  fun a s' hr => h a s' (he ▸ hr)

/-- A run that is known. -/
theorem Returns.of_run (hr : m s = .ok (a, s')) (hp : P a s') : Returns m s P := by
  intro b t hb
  rw [hr] at hb
  cases hb
  exact hp

/-- A program that faults returns nothing. -/
theorem Returns.of_fault {e : ε} (hr : m s = .error e) : Returns m s P := by
  intro b t hb
  rw [hr] at hb
  cases hb

/-- A program that cannot return does not. -/
theorem Returns.not_yields (h : Returns m s (fun _ _ => False)) : ¬Yields m s P := by
  rintro ⟨a, s', hr, -⟩
  exact h a s' hr

/-! ## Straight-line programs -/

theorem Returns.pure (hp : P a s) :
    Returns (Pure.pure a : StateT σ (Except ε) α) s P :=
  Returns.of_run rfl hp

theorem Returns.throw {e : ε} : Returns (MonadExcept.throw e : StateT σ (Except ε) α) s P :=
  Returns.of_fault rfl

theorem Returns.bind (hm : Returns m s P) (hf : ∀ a s', P a s' → Returns (f a) s' Q) :
    Returns (m >>= f) s Q := by
  intro b t hb
  cases hr : m s with
  | error e =>
      rw [bind_fails hr] at hb
      cases hb
  | ok q =>
      obtain ⟨a, s'⟩ := q
      rw [bind_run hr] at hb
      exact hf a s' (hm a s' hr) b t hb

/-- The bind rule where the first program's run is known exactly. -/
theorem Returns.step (hr : m s = .ok (a, s')) (hf : Returns (f a) s' Q) :
    Returns (m >>= f) s Q := by
  intro b t hb
  rw [bind_run hr] at hb
  exact hf b t hb

/-- The bind rule where the first program faults. -/
theorem Returns.stuck {e : ε} (hr : m s = .error e) : Returns (m >>= f) s Q :=
  Returns.of_fault (bind_fails hr)

theorem Returns.pure_bind (hf : Returns (f a) s Q) : Returns (Pure.pure a >>= f) s Q :=
  Returns.step rfl hf

/-- Programs that go on alike from wherever the first part leads. -/
theorem Returns.bind_congr {g : α → StateT σ (Except ε) β} (hm : Returns m s P)
    (hfg : ∀ a s', P a s' → f a s' = g a s') : (m >>= f) s = (m >>= g) s := by
  cases hr : m s with
  | error e => exact (bind_fails hr).trans (bind_fails hr).symm
  | ok q =>
      obtain ⟨a, s'⟩ := q
      exact (bind_run hr).trans ((hfg a s' (hm a s' hr)).trans (bind_run hr).symm)

/-- Programs that begin alike. -/
theorem bind_same {m' : StateT σ (Except ε) α} (hm : m s = m' s) : (m >>= f) s = (m' >>= f) s := by
  show (do let (a, s) ← m s; f a s) = (do let (a, s) ← m' s; f a s)
  rw [hm]

/-! ## Loops -/

/-- A loop whose first round is the same from two loop states. -/
theorem loopM_same {out : ε} {body : β → StateT σ (Except ε) (β ⊕ ρ)} {b b' : β}
    (hb : body b s = body b' s) (fuel : Nat) :
    loopM out body (fuel + 1) b s = loopM out body (fuel + 1) b' s :=
  bind_same hb

/-- A loop that is over in its first round. -/
theorem loopM_done {out : ε} {body : β → StateT σ (Except ε) (β ⊕ ρ)} {b : β} {r : ρ}
    (hb : body b s = .ok (.inr r, s')) (fuel : Nat) :
    loopM out body (fuel + 1) b s = .ok (r, s') :=
  bind_run hb

section Loop

variable {out : ε} {body : β → StateT σ (Except ε) (β ⊕ ρ)} {I : β → σ → Prop}
  {T : ρ → σ → Prop} {b : β}

/-- **The loop rule.** Without a promise to return, no measure is needed. -/
theorem Returns.loop
    (step : ∀ b s, I b s → Returns (body b) s (fun r s' =>
      match r with
      | .inl b' => I b' s'
      | .inr r => T r s')) :
    ∀ (fuel : Nat) (b : β) (s : σ), I b s → Returns (loopM out body fuel b) s T := by
  intro fuel
  induction fuel with
  | zero => exact fun _ _ _ => Returns.throw
  | succ fuel ih =>
      intro b s hI
      refine Returns.bind (step b s hI) ?_
      intro r s' hr
      cases r with
      | inl b' => exact ih b' s' hr
      | inr r => exact Returns.pure hr

/-- The loop rule, where a round may use that the loop has come to it. -/
theorem Returns.loop_from {fuel : Nat}
    (step : ∀ b' s', LoopReaches body (b, s) (b', s') → I b' s' →
      Returns (body b') s' (fun r s'' =>
        match r with
        | .inl b'' => I b'' s''
        | .inr r => T r s'')) (hI : I b s) :
    Returns (loopM out body fuel b) s T := by
  refine Returns.loop (I := fun b' s' => LoopReaches body (b, s) (b', s') ∧ I b' s') ?_ fuel b s
    ⟨.refl, hI⟩
  intro b' s' hI' r s'' hrun
  have hpost := step b' s' hI'.1 hI'.2 r s'' hrun
  cases r with
  | inl b'' => exact ⟨hI'.1.tail hrun, hpost⟩
  | inr r => exact hpost

/-- What every round that the loop comes to keeps, if it returns, holds wherever
the loop comes. -/
theorem Returns.reaches
    (step : ∀ b' s', LoopReaches body (b, s) (b', s') → I b' s' →
      Returns (body b') s' (fun r s'' =>
        match r with
        | .inl b'' => I b'' s''
        | .inr _ => True)) {y : β × σ} (hr : LoopReaches body (b, s) y) (hI : I b s) :
    I y.1 y.2 := by
  induction hr with
  | refl => exact hI
  | tail hreach hrun ih => exact step _ _ hreach ih _ _ hrun

end Loop

/-! ## When a program returns -/

section Settles

variable {p : Prop}

/-- Where `p` holds the program returns, and what it returns satisfies `P`; elsewhere it
faults. -/
structure Settles (p : Prop) (m : StateT σ (Except ε) α) (s : σ) (P : α → σ → Prop) : Prop where
  yields : p → Yields m s P
  fails : ¬p → Returns m s (fun _ _ => False)

theorem Settles.returns (h : Settles p m s P) : Returns m s P := by
  by_cases hp : p
  · exact (h.yields hp).returns
  · exact (h.fails hp).mono fun _ _ hf => hf.elim

theorem Settles.mono (h : Settles p m s P) (hpp : ∀ a s', P a s' → P' a s') : Settles p m s P' :=
  ⟨fun hp => (h.yields hp).mono hpp, h.fails⟩

/-- Whether the program returns what it should is decided by `p`. -/
theorem Settles.yields_iff (h : Settles p m s P) (hpp : ∀ a s', P a s' → P' a s') :
    Yields m s P' ↔ p := by
  constructor
  · intro hy
    by_contra hp
    exact (h.fails hp).not_yields hy
  · intro hp
    exact (h.yields hp).mono hpp

theorem Settles.iff {q : Prop} (h : Settles p m s P) (hq : q ↔ p) : Settles q m s P :=
  ⟨fun hp => h.yields (hq.mp hp), fun hp => h.fails (mt hq.mpr hp)⟩

theorem Settles.of_eq {m' : StateT σ (Except ε) α} {t : σ} (he : m s = m' t)
    (h : Settles p m' t P) : Settles p m s P :=
  ⟨fun hp => (h.yields hp).of_eq he, fun hp => (h.fails hp).of_eq he⟩

theorem Settles.step (hr : m s = .ok (a, s')) (hf : Settles p (f a) s' Q) :
    Settles p (m >>= f) s Q :=
  ⟨fun hp => (hf.yields hp).step hr, fun hp => (hf.fails hp).step hr⟩

theorem Settles.bind (hm : Settles p m s P) (hf : ∀ a s', P a s' → Yields (f a) s' Q) :
    Settles p (m >>= f) s Q :=
  ⟨fun hp => (hm.yields hp).bind hf, fun hp => (hm.fails hp).bind fun _ _ he => he.elim⟩

end Settles

/-! ## Programs that may give up -/

section Unless

variable {e : ε}

/-- The program returns what satisfies `P`, or gives up with the one fault `e`. -/
def Unless (e : ε) (m : StateT σ (Except ε) α) (s : σ) (P : α → σ → Prop) : Prop :=
  m s = .error e ∨ Yields m s P

theorem Yields.unless (h : Yields m s P) : Unless e m s P := .inr h

theorem Unless.mono (h : Unless e m s P) (hpp : ∀ a s', P a s' → P' a s') : Unless e m s P' :=
  h.imp_right fun hy => hy.mono hpp

theorem Unless.bind (hm : Unless e m s P) (hf : ∀ a s', P a s' → Unless e (f a) s' Q) :
    Unless e (m >>= f) s Q := by
  rcases hm with hfail | ⟨a, s', hr, hp⟩
  · exact .inl (bind_fails hfail)
  · rcases hf a s' hp with hfail | hy
    · exact .inl ((bind_run hr).trans hfail)
    · exact .inr (Yields.step hr hy)

/-- The bind rule where the first program's run is known exactly. -/
theorem Unless.step (hr : m s = .ok (a, s')) (hf : Unless e (f a) s' Q) :
    Unless e (m >>= f) s Q :=
  Unless.bind (Yields.intro (Q := fun b t => b = a ∧ t = s') hr ⟨rfl, rfl⟩).unless
    (by rintro _ _ ⟨rfl, rfl⟩; exact hf)

end Unless

end StateRun
