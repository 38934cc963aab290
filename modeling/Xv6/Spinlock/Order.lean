import Xv6.Spinlock.Harts
import Mathlib.Data.Finset.Max
import Mathlib.Data.Fintype.Card

/-!
# Lock order and deadlock

`acquire` spins for as long as another hart owns the lock, and nothing in `spinlock.c` stops two
harts from each spinning on a lock the other owns: the kernel avoids that by taking its locks in
one order. Here the order is the locks' numbers. `harts_deadlock_free` shows that from every state
the harts reach while each takes only locks above those it holds, the harts can all return from
their lock calls: some run in which harts only go on inside their calls and release locks they
hold brings every hart back between calls. `harts_wait_cycle_hangs` shows what the order rules
out: two harts each spinning on a lock the other holds spin for ever, whatever any hart does.
-/

namespace Xv6.Spinlock

variable {NCPU : Nat}

/-- The steps that finish what the harts have begun: going on inside a call, or releasing a lock. -/
def Event.Unwinds : Event → Prop
  | .next | .release _ => True
  | _ => False

namespace Harts

/-- The lock order: a hart begins `acquire(lk)` only while every lock it holds is below `lk`. -/
def InOrder (s : Harts NCPU) (c : Fin NCPU) : Event → Prop
  | .acquire lk => ∀ l ∈ (s.hart c).held, l < lk
  | _ => True

instance (s : Harts NCPU) (c : Fin NCPU) : (e : Event) → Decidable (s.InOrder c e)
  | .acquire lk => inferInstanceAs (Decidable (∀ l ∈ (s.hart c).held, l < lk))
  | .release _ | .pushOff | .popOff | .intrOn | .intrOff | .next => isTrue trivial

/-- From boot, any interleaving of allowed steps that keeps the lock order. -/
inductive Ordered : Harts NCPU → Prop
  | init (intena intr : Fin NCPU → Bool) :
      Ordered ⟨fun c => ⟨⟨0, intena c, intr c⟩, [], 0⟩, fun _ => .run, fun _ => initlock⟩
  | step {s s' : Harts NCPU} {c : Fin NCPU} {e : Event} :
      Ordered s → s.Allowed c e → s.InOrder c e → s.step c e = .ok s' → Ordered s'

/-- Runs of allowed steps, each of an event that `kind` admits. -/
inductive Runs (kind : Event → Prop) : Harts NCPU → Harts NCPU → Prop
  | refl (s : Harts NCPU) : Runs kind s s
  | step {s s' s'' : Harts NCPU} {c : Fin NCPU} {e : Event} :
      kind e → s.Allowed c e → s.step c e = .ok s' → Runs kind s' s'' → Runs kind s s''

/-- The lock hart `c` spins on, 0 when it does not spin. -/
def spinsOn (s : Harts NCPU) (c : Fin NCPU) : Lock :=
  match s.pc c with
  | .spin lk => lk
  | _ => 0

/-- The harts inside `acquire` or `release`. -/
def busy (s : Harts NCPU) : Finset (Fin NCPU) := Finset.univ.filter fun c => s.pc c ≠ .run

/-- A spinning hart holds only locks below the one it spins on. -/
def Below (s : Harts NCPU) : Prop := ∀ c lk, s.pc c = .spin lk → ∀ l ∈ (s.hart c).held, l < lk

/-- Two harts each spinning on a lock the other holds. -/
structure WaitCycle (s : Harts NCPU) (c c' : Fin NCPU) (lk lk' : Lock) : Prop where
  spin : s.pc c = .spin lk
  owner : lk ∈ (s.hart c').held
  spin' : s.pc c' = .spin lk'
  owner' : lk' ∈ (s.hart c).held

variable {s s' s'' : Harts NCPU} {c d : Fin NCPU} {e : Event} {lk lk' : Lock} {kind : Event → Prop}

/-! ### What a step of one hart does -/

theorem map_setHart {x : Except String Hart} (ok : x.map (s.setHart d) = .ok s') :
    ∃ h, x = .ok h ∧ s' = s.setHart d h := by
  cases x with
  | error => cases ok
  | ok h => exact ⟨h, rfl, (Except.ok.inj ok).symm⟩

theorem step_frame (ok : s.step d e = .ok s') (ne : c ≠ d) : s'.pc c = s.pc c ∧ s'.hart c = s.hart c := by
  cases e
  case acquire lk =>
    simp only [Harts.step, Harts.acquire] at ok
    split at ok <;> cases ok
    simp [ne]
  case release lk =>
    simp only [Harts.step, Harts.release] at ok
    split at ok <;> cases ok
    simp [ne]
  case next =>
    simp only [Harts.step] at ok
    split at ok
    · cases ok; simp
    · split at ok <;> cases ok <;> simp [ne]
    · cases ok; simp [ne]
    · cases popped : popOff (s.hart d).cpu <;> simp only [popped, Except.map, Except.ok.injEq] at ok
      · cases ok
      · subst ok; simp [ne]
  all_goals
    rw [Harts.step] at ok
    obtain ⟨_, -, rfl⟩ := map_setHart ok
    simp [ne]

theorem step_spin (ok : s.step d e = .ok s') (spin : s'.pc d = .spin lk) :
    (s'.hart d).held = (s.hart d).held ∧ (s.pc d = .spin lk ∨ e = .acquire lk) := by
  cases e
  case acquire lk' =>
    simp only [Harts.step, Harts.acquire] at ok
    split at ok <;> cases ok
    simp only [setPc_pc_self, Pc.spin.injEq] at spin
    simp [spin]
  case release lk' =>
    simp only [Harts.step, Harts.release] at ok
    split at ok <;> cases ok
    simp at spin
  case next =>
    simp only [Harts.step] at ok
    split at ok
    · cases ok; exact ⟨rfl, .inl spin⟩
    · split at ok <;> cases ok
      · exact ⟨rfl, .inl spin⟩
      · simp at spin
    · cases ok; simp at spin
    · cases popped : popOff (s.hart d).cpu <;> simp only [popped, Except.map, Except.ok.injEq] at ok
      · cases ok
      · subst ok; simp at spin
  case popOff =>
    simp only [Harts.step, Spinlock.step] at ok
    cases popped : popOff (s.hart d).cpu <;> simp only [popped, Except.map, Except.ok.injEq] at ok
    · cases ok
    · subst ok; exact ⟨by simp, .inl (by simpa using spin)⟩
  all_goals
    cases ok
    exact ⟨by simp, .inl (by simpa using spin)⟩

theorem inOrder_of_unwinds (unwinds : e.Unwinds) : s.InOrder d e := by
  cases e
  case acquire => exact unwinds.elim
  all_goals trivial

theorem Below.step (below : s.Below) (inOrder : s.InOrder d e) (ok : s.step d e = .ok s') : s'.Below := by
  intro c lk spin l mem
  by_cases same : c = d
  · subst same
    obtain ⟨held, before | rfl⟩ := step_spin ok spin
    · exact below c lk before l (held ▸ mem)
    · exact inOrder l (held ▸ mem)
  · obtain ⟨pc, hart⟩ := step_frame ok same
    exact below c lk (pc ▸ spin) l (hart ▸ mem)

theorem Ordered.reachable (ordered : s.Ordered) : s.Reachable ∧ s.Below := by
  induction ordered with
  | init => exact ⟨.init _ _, fun _ _ spin => by cases spin⟩
  | step _ allowed inOrder ok ih => exact ⟨.step ih.1 allowed ok, ih.2.step inOrder ok⟩

theorem Runs.trans (r₁ : Runs kind s s') (r₂ : Runs kind s' s'') : Runs kind s s'' := by
  induction r₁ with
  | refl => exact r₂
  | step admitted allowed ok _ ih => exact .step admitted allowed ok (ih r₂)

theorem Ordered.unwind (ordered : s.Ordered) (ok : s.step d e = .ok s') (allowed : s.Allowed d e)
    (unwinds : e.Unwinds) : Runs Event.Unwinds s s' ∧ s'.Ordered :=
  ⟨.step unwinds allowed ok (.refl _), .step ordered allowed (inOrder_of_unwinds unwinds) ok⟩

/-! ### Each hart can return -/

theorem Inv.release_of_held (inv : s.Inv) (held : lk ∈ (s.hart c).held) :
    ∃ s', s.step c (.release lk) = .ok s' ∧ s'.pc c = .drop lk :=
  ⟨_, by simp only [Harts.step, Harts.release, inv.holding_iff.mpr held]; rfl, by simp⟩

theorem Inv.next_drop (inv : s.Inv) (drop : s.pc c = .drop lk) :
    ∃ s', s.step c .next = .ok s' ∧ s'.pc c = .run ∧ (s'.locks lk).locked = false := by
  obtain ⟨s', ok⟩ | ⟨_, no, -⟩ | ⟨_, no, -⟩ := inv.step_ok (show s.Allowed c .next by simp [Allowed, drop])
  · refine ⟨s', ok, ?_⟩
    simp only [Harts.step, drop] at ok
    cases popped : popOff (s.hart c).cpu <;> simp only [popped, Except.map, Except.ok.injEq] at ok
    · cases ok
    · subst ok; simp
  all_goals cases no

/-- A run from `s` under the lock order that brings hart `c` back between calls and leaves every
other hart where it was. -/
def Returns (s : Harts NCPU) (c : Fin NCPU) : Prop :=
  ∃ s', Runs Event.Unwinds s s' ∧ s'.Ordered ∧ s'.pc c = .run ∧ ∀ c' ≠ c, s'.pc c' = s.pc c'

theorem Returns.back (runs : Runs Event.Unwinds s s') (frame : ∀ c' ≠ c, s'.pc c' = s.pc c')
    (ret : s'.Returns c) : s.Returns c := by
  obtain ⟨s'', runs', ordered, run, frame'⟩ := ret
  exact ⟨s'', runs.trans runs', ordered, run, fun c' ne => (frame' c' ne).trans (frame c' ne)⟩

theorem Ordered.returns_next (ordered : s.Ordered) (busy : s.pc c ≠ .run) (ok : s.step c .next = .ok s')
    (run : s'.pc c = .run) : s.Returns c :=
  have ⟨runs, ordered'⟩ := ordered.unwind ok busy trivial
  ⟨s', runs, ordered', run, fun _ ne => (step_frame ok ne).1⟩

theorem Ordered.returns_got (ordered : s.Ordered) (got : s.pc c = .got lk) : s.Returns c := by
  obtain ⟨s', ok, run⟩ : ∃ s', s.step c .next = .ok s' ∧ s'.pc c = .run :=
    ⟨_, by rw [Harts.step, got], by simp⟩
  exact ordered.returns_next (by simp [got]) ok run

theorem Ordered.returns_drop (ordered : s.Ordered) (drop : s.pc c = .drop lk) : s.Returns c := by
  obtain ⟨s', ok, run, -⟩ := ordered.reachable.1.inv.next_drop drop
  exact ordered.returns_next (by simp [drop]) ok run

theorem Ordered.returns_spin (ordered : s.Ordered) (spin : s.pc c = .spin lk)
    (free : (s.locks lk).locked = false) : s.Returns c := by
  obtain ⟨s', ok, got⟩ : ∃ s', s.step c .next = .ok s' ∧ s'.pc c = .got lk :=
    ⟨_, by simp only [Harts.step, spin, free]; rfl, by simp⟩
  obtain ⟨runs, ordered'⟩ := ordered.unwind ok (by simp [Allowed, spin]) trivial
  exact Returns.back runs (fun _ ne => (step_frame ok ne).1) (ordered'.returns_got got)

theorem Ordered.returns_handover (ordered : s.Ordered) (spin : s.pc c = .spin lk) (run : s.pc d = .run)
    (held : lk ∈ (s.hart d).held) : s.Returns c := by
  obtain ⟨s₁, ok₁, drop⟩ := ordered.reachable.1.inv.release_of_held held
  obtain ⟨runs₁, ordered₁⟩ := ordered.unwind ok₁ run trivial
  obtain ⟨s₂, ok₂, back, free⟩ := ordered₁.reachable.1.inv.next_drop drop
  obtain ⟨runs₂, ordered₂⟩ := ordered₁.unwind ok₂ (by simp [Allowed, drop]) trivial
  have same (c' : Fin NCPU) : s₂.pc c' = s.pc c' := by
    by_cases holder : c' = d
    · subst holder; rw [back, run]
    · rw [(step_frame ok₂ holder).1, (step_frame ok₁ holder).1]
  exact Returns.back (runs₁.trans runs₂) (fun c' _ => same c')
    (ordered₂.returns_spin (by rw [same, spin]) free)

theorem Ordered.some_returns (ordered : s.Ordered) (nonempty : (busy s).Nonempty) :
    ∃ c ∈ busy s, s.Returns c := by
  obtain ⟨reach, below⟩ := ordered.reachable
  by_cases finishing : ∃ c lk, s.pc c = .got lk ∨ s.pc c = .drop lk
  · obtain ⟨c, lk, got | drop⟩ := finishing
    · exact ⟨c, by simp [busy, got], ordered.returns_got got⟩
    · exact ⟨c, by simp [busy, drop], ordered.returns_drop drop⟩
  push_neg at finishing
  have spins (c : Fin NCPU) (inside : c ∈ busy s) : s.pc c = .spin (s.spinsOn c) := by
    simp only [busy, Finset.mem_filter, Finset.mem_univ, true_and] at inside
    cases pc : s.pc c with
    | run => exact absurd pc inside
    | spin lk => simp [spinsOn, pc]
    | got lk => exact absurd pc (finishing c lk).1
    | drop lk => exact absurd pc (finishing c lk).2
  obtain ⟨c, inside, highest⟩ := Finset.exists_max_image (busy s) s.spinsOn nonempty
  refine ⟨c, inside, ?_⟩
  cases free : (s.locks (s.spinsOn c)).locked
  · exact ordered.returns_spin (spins c inside) free
  obtain ⟨d, held | got | drop⟩ := (reach.inv.locked_iff _).mp free
  · have run : s.pc d = .run := by
      by_contra out
      have inside' : d ∈ busy s := by simp [busy, out]
      have above := below d _ (spins d inside') _ held
      exact absurd (highest d inside') (Nat.not_le.mpr above)
    exact ordered.returns_handover (spins c inside) run held
  · exact absurd got (finishing d _).1
  · exact absurd drop (finishing d _).2

theorem busy_return (run : s'.pc c = .run) (frame : ∀ c' ≠ c, s'.pc c' = s.pc c') :
    busy s' = (busy s).erase c := by
  ext c'
  by_cases same : c' = c
  · subst same; simp [busy, run]
  · simp [busy, same, frame c' same]

theorem Ordered.unwinds (n : Nat) : ∀ s : Harts NCPU, s.Ordered → (busy s).card ≤ n →
    ∃ s', Runs Event.Unwinds s s' ∧ ∀ c, s'.pc c = .run := by
  induction n with
  | zero =>
    intro s _ none
    refine ⟨s, .refl _, fun c => ?_⟩
    have := Finset.card_eq_zero.mp (Nat.le_zero.mp none)
    by_contra out
    exact Finset.not_mem_empty c (this ▸ by simp [busy, out])
  | succ n ih =>
    intro s ordered bound
    rcases (busy s).eq_empty_or_nonempty with none | nonempty
    · exact ⟨s, .refl _, fun c => by_contra fun out => Finset.not_mem_empty c (none ▸ by simp [busy, out])⟩
    obtain ⟨c, inside, s', runs, ordered', run, frame⟩ := ordered.some_returns nonempty
    have fewer := Finset.card_erase_lt_of_mem inside
    rw [← busy_return run frame] at fewer
    obtain ⟨s'', runs', done⟩ := ih s' ordered' (by omega)
    exact ⟨s'', runs.trans runs', done⟩

/-! ### A wait cycle -/

theorem spin_stays (spin : s.pc d = .spin lk) (locked : (s.locks lk).locked = true)
    (allowed : s.Allowed d e) (ok : s.step d e = .ok s') : s' = s := by
  cases e
  case next => simp only [Harts.step, spin, locked, if_true, Except.ok.injEq] at ok; exact ok.symm
  all_goals simp [Allowed, spin] at allowed

theorem WaitCycle.step (inv : s.Inv) (cycle : s.WaitCycle c c' lk lk') (allowed : s.Allowed d e)
    (ok : s.step d e = .ok s') : s'.WaitCycle c c' lk lk' := by
  by_cases first : d = c
  · subst first
    rwa [spin_stays cycle.spin ((inv.locked_iff lk).mpr ⟨c', .inl cycle.owner⟩) allowed ok]
  by_cases second : d = c'
  · subst second
    rwa [spin_stays cycle.spin' ((inv.locked_iff lk').mpr ⟨c, .inl cycle.owner'⟩) allowed ok]
  obtain ⟨pc, hart⟩ := step_frame ok (Ne.symm first)
  obtain ⟨pc', hart'⟩ := step_frame ok (Ne.symm second)
  exact ⟨pc ▸ cycle.spin, hart' ▸ cycle.owner, pc' ▸ cycle.spin', hart ▸ cycle.owner'⟩

theorem Runs.waitCycle (runs : Runs kind s s') (reach : s.Reachable) (cycle : s.WaitCycle c c' lk lk') :
    s'.WaitCycle c c' lk lk' := by
  induction runs with
  | refl => exact cycle
  | step _ allowed ok _ ih => exact ih (reach.step allowed ok) (cycle.step reach.inv allowed ok)

end Harts

/-- Under the lock order the harts never deadlock. -/
theorem harts_deadlock_free {s : Harts NCPU} (ordered : s.Ordered) :
    ∃ s', s.Runs Event.Unwinds s' ∧ ∀ c, s'.pc c = .run :=
  Harts.Ordered.unwinds _ s ordered le_rfl

theorem contended_ordered : ∃ s : Harts 2, s.Ordered ∧ s.holding 0 3 = true ∧ s.pc 1 = .spin 3 := by
  have r₀ := @Harts.Ordered.init 2 (fun _ => true) (fun _ => true)
  have r₁ := @Harts.Ordered.step 2 _ _ 0 (.acquire 3) r₀ rfl (by decide) rfl
  have r₂ := @Harts.Ordered.step 2 _ _ 0 .next r₁ (by decide) trivial rfl
  have r₃ := @Harts.Ordered.step 2 _ _ 0 .next r₂ (by decide) trivial rfl
  have r₄ := @Harts.Ordered.step 2 _ _ 1 (.acquire 3) r₃ rfl (by decide) rfl
  have r₅ := @Harts.Ordered.step 2 _ _ 1 .next r₄ (by decide) trivial rfl
  exact ⟨_, r₅, rfl, rfl⟩

theorem harts_deadlock_free_contended : ∃ s : Harts 2, s.Ordered ∧ s.pc 1 = .spin 3 ∧
    ∃ s', s.Runs Event.Unwinds s' ∧ ∀ c, s'.pc c = .run := by
  obtain ⟨s, ordered, -, spins⟩ := contended_ordered
  exact ⟨s, ordered, spins, harts_deadlock_free ordered⟩

/-- `acquire` does nothing against a wait cycle. -/
theorem harts_wait_cycle_hangs {s s' : Harts NCPU} (reach : s.Reachable) {c c' : Fin NCPU}
    {lk lk' : Lock} (cycle : s.WaitCycle c c' lk lk') (runs : s.Runs (fun _ => True) s') :
    s'.WaitCycle c c' lk lk' :=
  runs.waitCycle reach cycle

theorem crossed_reachable : ∃ s : Harts 2, s.Reachable ∧ s.WaitCycle 0 1 1 2 := by
  have r₀ := @Harts.Reachable.init 2 (fun _ => true) (fun _ => true)
  have r₁ := @Harts.Reachable.step 2 _ _ 0 (.acquire 2) r₀ rfl rfl
  have r₂ := @Harts.Reachable.step 2 _ _ 0 .next r₁ (by decide) rfl
  have r₃ := @Harts.Reachable.step 2 _ _ 0 .next r₂ (by decide) rfl
  have r₄ := @Harts.Reachable.step 2 _ _ 1 (.acquire 1) r₃ rfl rfl
  have r₅ := @Harts.Reachable.step 2 _ _ 1 .next r₄ (by decide) rfl
  have r₆ := @Harts.Reachable.step 2 _ _ 1 .next r₅ (by decide) rfl
  have r₇ := @Harts.Reachable.step 2 _ _ 0 (.acquire 1) r₆ rfl rfl
  have r₈ := @Harts.Reachable.step 2 _ _ 1 (.acquire 2) r₇ rfl rfl
  exact ⟨_, r₈, rfl, by decide, rfl, by decide⟩

theorem harts_wait_cycle_hangs_crossed : ∃ s : Harts 2, s.Reachable ∧ s.WaitCycle 0 1 1 2 ∧
    ∀ s', s.Runs (fun _ => True) s' → s'.WaitCycle 0 1 1 2 := by
  obtain ⟨s, reach, cycle⟩ := crossed_reachable
  exact ⟨s, reach, cycle, fun _ runs => harts_wait_cycle_hangs reach cycle runs⟩

end Xv6.Spinlock
