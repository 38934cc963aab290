import Xv6.Sleeplock

/-!
# Every call on a sleeplock can return

`sleeplock_reacquire_hangs` shows that a holder calling `acquiresleep` again never returns. That
is the only way a call on a sleeplock can hang: `sleeplock_calls_return` shows that from every
reachable state in which no holder of the sleeplock is inside `acquiresleep`, each process's call
can return, an `acquiresleep` holding the sleeplock. The run that does it lets the process in a
section under `lk->lk` finish it, then has the holder of the sleeplock, between sections, make
the `holdingsleep` and `releasesleep` that `brelse` makes, whose `wakeup` sends every sleeper back
to `acquire(&lk->lk)`.
-/

namespace Xv6.Sleeplocks

namespace Sys

variable {s s' s'' : Sys} {p q r : Nat}
theorem Runs.trans (r₁ : s.Runs s') (r₂ : s'.Runs s'') : s.Runs s'' := by
  induction r₁ with
  | refl => exact r₂
  | step allowed ok _ ih => exact .step allowed ok (ih r₂)

theorem Runs.reachable (runs : s.Runs s') (reach : s.Reachable) : s'.Reachable := by
  induction runs with
  | refl => exact reach
  | step allowed ok _ ih => exact ih (reach.step allowed ok)

theorem runs_holding (free : s.holder = none) (spin : (s.procs p).place = .holdingSpin) :
    s.Runs { s with procs := (Function.update s.procs p
      { s.procs p with place := .holdingRet (s.lock.locked && s.lock.pid == p) }) } := by
  obtain ⟨lock, holder, procs⟩ := s
  simp only at free spin ⊢
  subst free
  refine @Runs.step _ _ _ p .acquire trivial (by simp [Sys.step, Place.acquired, spin]; rfl) ?_
  refine @Runs.step _ _ _ p .body trivial (by simp [Sys.step, Sys.body]) (.refl _)

theorem wakeup_congr {procs procs' : Nat → Caller} (same : procs p = procs' p) :
    wakeup procs p = wakeup procs' p := by
  unfold wakeup; rw [same]

theorem wakeup_update_self {procs : Nat → Caller} {c x : Caller} :
    Function.update (wakeup (Function.update procs p c)) p x = Function.update (wakeup procs) p x := by
  funext q
  by_cases same : q = p
  · subst q; simp
  · simp [same, wakeup]

theorem acquiring_wakeup {procs : Nat → Caller} (q : Nat) :
    (wakeup procs q).place.acquiring = (procs q).place.acquiring := by
  rw [wakeup_place]; split <;> simp_all [Place.acquiring]

/-! ### Sections under `lk->lk` -/

theorem runs_release (free : s.holder = none) (spin : (s.procs p).place = .releaseSpin) :
    s.Runs { lock := ⟨false, 0⟩, holder := none, procs := Function.update (wakeup s.procs) p ⟨.idle, false⟩ } := by
  obtain ⟨lock, holder, procs⟩ := s
  simp only at free spin ⊢
  subst free
  refine @Runs.step _ _ _ p .acquire trivial (by simp [Sys.step, Place.acquired, spin]; rfl) ?_
  refine @Runs.step _ _ _ p .body trivial (by simp [Sys.step, Sys.body, wakeup_update_self]) (.refl _)

theorem runs_take (free : s.holder = none) (spin : (s.procs p).place = .acquireSpin)
    (unlocked : s.lock.locked = false) :
    s.Runs { lock := ⟨true, p⟩, holder := none, procs := Function.update s.procs p ⟨.idle, true⟩ } := by
  obtain ⟨lock, holder, procs⟩ := s
  simp only at free spin unlocked ⊢
  subst free
  refine @Runs.step _ _ _ p .acquire trivial (by simp [Sys.step, Place.acquired, spin]; rfl) ?_
  refine @Runs.step _ _ _ p .body trivial (by simp [Sys.step, Sys.body, unlocked]) (.refl _)

theorem body_cases (ok : s.step r .body = some s') :
    s.holder = some r ∧
    (((s.procs r).place = .acquireLoop ∧ s.lock.locked = true ∧
      s' = { s with holder := none, procs := Function.update s.procs r { s.procs r with place := .asleep } }) ∨
    ((s.procs r).place = .acquireLoop ∧ s.lock.locked = false ∧
      s' = { lock := ⟨true, r⟩, holder := none, procs := Function.update s.procs r ⟨.idle, true⟩ }) ∨
    ((s.procs r).place = .releaseBody ∧
      s' = { lock := ⟨false, 0⟩, holder := none, procs := Function.update (wakeup s.procs) r ⟨.idle, false⟩ }) ∨
    ((s.procs r).place = .holdingBody ∧
      s' = { s with
        holder := none
        procs := Function.update s.procs r
          { s.procs r with place := .holdingRet (s.lock.locked && s.lock.pid == r) } })) := by
  simp only [Sys.step] at ok
  split at ok
  · rename_i holder
    refine ⟨holder, ?_⟩
    simp only [Sys.body] at ok
    split at ok
    · rename_i loop
      split at ok
      · cases ok; exact .inl ⟨loop, ‹_›, rfl⟩
      · rename_i free
        cases ok; exact .inr (.inl ⟨loop, by simpa using free, rfl⟩)
    · cases ok; exact .inr (.inr (.inl ⟨‹_›, rfl⟩))
    · cases ok; exact .inr (.inr (.inr ⟨‹_›, rfl⟩))
    · cases ok
  · cases ok

theorem Inv.body_some (inv : s.Inv) (holder : s.holder = some r) : ∃ s', s.step r .body = some s' := by
  have locked := (inv.holder r).mp holder
  simp only [Sys.step, holder, if_true, Sys.body]
  cases place : (s.procs r).place <;> simp only [place, Place.locked, Bool.false_eq_true] at locked ⊢
  all_goals first | exact ⟨_, rfl⟩ | (split <;> exact ⟨_, rfl⟩)

theorem body_frame (ok : s.step r .body = some s') (ne : p ≠ r) :
    s'.procs p = s.procs p ∨ s'.procs p = wakeup s.procs p := by
  obtain ⟨-, ⟨-, -, rfl⟩ | ⟨-, -, rfl⟩ | ⟨-, rfl⟩ | ⟨-, rfl⟩⟩ := body_cases ok
  all_goals simp [Function.update_noteq ne]

/-- No holder of the sleeplock is inside `acquiresleep`. -/
def NoReacquire (s : Sys) : Prop := ∀ q, (s.procs q).held → (s.procs q).place.acquiring = false

theorem NoReacquire.body (noRe : s.NoReacquire) (ok : s.step r .body = some s') : s'.NoReacquire := by
  intro q held
  by_cases same : q = r
  · subst q
    obtain ⟨-, ⟨loop, -, rfl⟩ | ⟨-, -, rfl⟩ | ⟨-, rfl⟩ | ⟨-, rfl⟩⟩ := body_cases ok
    · have := noRe r (by simpa using held)
      rw [loop] at this; cases this
    all_goals simp [Place.acquiring]
  · rcases body_frame ok same with kept | woken
    · rw [kept] at held ⊢; exact noRe q held
    · rw [woken, held_wakeup] at held; rw [woken, acquiring_wakeup]; exact noRe q held

/-! ### The holder of the sleeplock frees it -/

/-- What freeing the sleeplock leaves. -/
def Frees (s : Sys) (q : Nat) : Prop :=
  ∃ s', s.Runs s' ∧ s'.holder = none ∧ s'.lock.locked = false ∧ ∀ p ≠ q, s'.procs p = wakeup s.procs p

theorem frees_of_spin (free : s.holder = none) (spin : (s.procs q).place = .releaseSpin) : s.Frees q :=
  ⟨_, runs_release free spin, rfl, rfl, fun _ ne => Function.update_noteq ne _ _⟩

theorem Frees.back (runs : s.Runs s') (moved : ∀ p ≠ q, s'.procs p = s.procs p) (frees : s'.Frees q) :
    s.Frees q := by
  obtain ⟨s'', runs', free, unlocked, woken⟩ := frees
  exact ⟨s'', runs.trans runs', free, unlocked, fun p ne => (woken p ne).trans (wakeup_congr (moved p ne))⟩

theorem frees_of_answer (free : s.holder = none) (answer : (s.procs q).place = .holdingRet true) :
    s.Frees q := by
  have enter : s.step q .releasesleep =
      some { s with procs := Function.update s.procs q { s.procs q with place := .releaseSpin } } := by
    simp [Sys.step, Sys.enter, answer, Place.outside]
  exact Frees.back (@Runs.step _ _ _ q .releasesleep answer enter (.refl _)) (fun _ ne => Function.update_noteq ne _ _)
    (frees_of_spin free (by simp))

theorem frees_of_holding (free : s.holder = none) (lock : s.lock = ⟨true, q⟩)
    (spin : (s.procs q).place = .holdingSpin) : s.Frees q :=
  Frees.back (runs_holding free spin) (fun _ ne => Function.update_noteq ne _ _)
    (frees_of_answer free (by simp [lock]))

theorem frees_of_outside (free : s.holder = none) (lock : s.lock = ⟨true, q⟩)
    (out : (s.procs q).place.outside) : s.Frees q := by
  have enter : s.step q .holdingsleep =
      some { s with procs := Function.update s.procs q { s.procs q with place := .holdingSpin } } := by
    simp [Sys.step, Sys.enter, out]
  exact Frees.back (@Runs.step _ _ _ q .holdingsleep trivial enter (.refl _)) (fun _ ne => Function.update_noteq ne _ _)
    (frees_of_holding free lock (by simp))

theorem Inv.frees (inv : s.Inv) (free : s.holder = none) (held : (s.procs q).held)
    (notAcquiring : (s.procs q).place.acquiring = false) : s.Frees q := by
  have lock : s.lock = ⟨true, q⟩ := by rw [← inv.pid q held, ← inv.locked_iff.mpr ⟨q, held⟩]
  have outsideSections : (s.procs q).place.locked = false := by simpa [free] using inv.holder q
  cases place : (s.procs q).place
  case idle => exact frees_of_outside free lock (by simp [place, Place.outside])
  case holdingRet => exact frees_of_outside free lock (by simp [place, Place.outside])
  case releaseSpin => exact frees_of_spin free place
  case holdingSpin => exact frees_of_holding free lock place
  all_goals simp [place, Place.acquiring, Place.locked] at notAcquiring outsideSections

/-! ### Each call returns -/

/-- A run from `s` after which `p` is outside every call, holding the sleeplock if it was in `acquiresleep`. -/
def Returns (s : Sys) (p : Nat) : Prop :=
  ∃ s', s.Runs s' ∧ (s'.procs p).place.outside ∧ ((s.procs p).place.acquiring → (s'.procs p).held)

theorem Returns.back (runs : s.Runs s') (kept : (s.procs p).place.acquiring → (s'.procs p).place.acquiring)
    (ret : s'.Returns p) : s.Returns p := by
  obtain ⟨s'', runs', out, held⟩ := ret
  exact ⟨s'', runs.trans runs', out, fun acquiring => held (kept acquiring)⟩

theorem returns_take (free : s.holder = none) (spin : (s.procs p).place = .acquireSpin)
    (unlocked : s.lock.locked = false) : s.Returns p :=
  ⟨_, runs_take free spin unlocked, by simp [Place.outside], fun _ => by simp⟩

theorem Inv.returns_waiting (inv : s.Inv) (noRe : s.NoReacquire) (free : s.holder = none)
    (locked : s.lock.locked = true)
    (waits : (s.procs p).place = .acquireSpin ∨ (s.procs p).place = .asleep) : s.Returns p := by
  obtain ⟨q, held⟩ := inv.locked_iff.mp locked
  have acquiring : (s.procs p).place.acquiring := by rcases waits with place | place <;> simp [place, Place.acquiring]
  have ne : p ≠ q := by rintro rfl; simp [noRe p held] at acquiring
  obtain ⟨s', runs, free', unlocked, woken⟩ := inv.frees free held (noRe q held)
  have spin : (s'.procs p).place = .acquireSpin := by
    rw [woken p ne, wakeup_place]; rcases waits with place | place <;> simp [place]
  exact Returns.back runs (fun _ => by simp [spin, Place.acquiring]) (returns_take free' spin unlocked)

theorem Inv.returns_body (inv : s.Inv) (noRe : s.NoReacquire) (holder : s.holder = some p) : s.Returns p := by
  obtain ⟨s', ok⟩ := inv.body_some holder
  have once : s.Runs s' := @Runs.step _ _ _ p .body trivial ok (.refl _)
  obtain ⟨-, ⟨loop, locked, rfl⟩ | ⟨-, -, rfl⟩ | ⟨body, rfl⟩ | ⟨body, rfl⟩⟩ := body_cases ok
  · exact Returns.back once (fun _ => by simp [Place.acquiring])
      ((@Inv.step _ _ p .body inv trivial ok).returns_waiting (noRe.body ok) rfl locked (.inr (by simp)))
  · exact ⟨_, once, by simp [Place.outside], fun _ => by simp⟩
  all_goals exact ⟨_, once, by simp [Place.outside], fun acquiring => by simp [body, Place.acquiring] at acquiring⟩

theorem Inv.returns_of_holder (inv : s.Inv) (noRe : s.NoReacquire) (mine : s.holder = none ∨ s.holder = some p) :
    s.Returns p := by
  rcases mine with free | holder
  · have outsideSections : (s.procs p).place.locked = false := by simpa [free] using inv.holder p
    cases place : (s.procs p).place
    case idle | holdingRet => exact ⟨s, .refl _, by simp [place, Place.outside], fun acquiring => by
      simp [place, Place.acquiring] at acquiring⟩
    case acquireSpin =>
      cases locked : s.lock.locked
      · exact returns_take free place locked
      · exact inv.returns_waiting noRe free locked (.inl place)
    case asleep => exact inv.returns_waiting noRe free (inv.asleep p place) (.inr place)
    case holdingSpin => exact ⟨_, runs_holding free place, by simp [Place.outside], fun acquiring => by
      simp [place, Place.acquiring] at acquiring⟩
    case releaseSpin => exact ⟨_, runs_release free place, by simp [Place.outside], fun acquiring => by
      simp [place, Place.acquiring] at acquiring⟩
    all_goals simp [place, Place.locked] at outsideSections
  · exact inv.returns_body noRe holder

theorem Reachable.returns (reach : s.Reachable) (noRe : s.NoReacquire) (p : Nat) : s.Returns p := by
  have inv := reach.inv
  cases holder : s.holder with
  | none => exact inv.returns_of_holder noRe (.inl holder)
  | some r =>
    by_cases same : r = p
    · exact inv.returns_of_holder noRe (.inr (same ▸ holder))
    obtain ⟨s', ok⟩ := inv.body_some holder
    have kept : (s.procs p).place.acquiring → (s'.procs p).place.acquiring := by
      rcases body_frame ok (Ne.symm same) with kept | woken
      · rw [kept]; exact id
      · rw [woken, acquiring_wakeup]; exact id
    have freed : s'.holder = none := by
      obtain ⟨-, ⟨-, -, rfl⟩ | ⟨-, -, rfl⟩ | ⟨-, rfl⟩ | ⟨-, rfl⟩⟩ := body_cases ok <;> rfl
    exact Returns.back (@Runs.step _ _ _ r .body trivial ok (.refl _)) kept
      ((@Reachable.step _ _ r .body reach trivial ok).inv.returns_of_holder (noRe.body ok) (.inl freed))

end Sys

/-- `acquiresleep`'s missing re-acquire check is the only way a call on a sleeplock can hang. -/
theorem sleeplock_calls_return {s : Sys} (reach : s.Reachable)
    (noReacquire : ∀ q, (s.procs q).held → (s.procs q).place.acquiring = false) (p : Nat) :
    ∃ s', s.Runs s' ∧ (s'.procs p).place.outside ∧ ((s.procs p).place.acquiring → (s'.procs p).held) :=
  reach.returns noReacquire p

theorem sleeper_reachable : ∃ s : Sys, s.Reachable ∧ (s.procs 1).place = .idle ∧ (s.procs 1).held ∧
    (s.procs 2).place = .asleep := by
  have r₁ := @Sys.Reachable.step _ _ 1 .acquiresleep Sys.Reachable.init trivial rfl
  have r₂ := @Sys.Reachable.step _ _ 1 .acquire r₁ trivial rfl
  have r₃ := @Sys.Reachable.step _ _ 1 .body r₂ trivial rfl
  have r₄ := @Sys.Reachable.step _ _ 2 .acquiresleep r₃ trivial rfl
  have r₅ := @Sys.Reachable.step _ _ 2 .acquire r₄ trivial rfl
  have r₆ := @Sys.Reachable.step _ _ 2 .body r₅ trivial rfl
  exact ⟨_, r₆, rfl, rfl, rfl⟩

theorem sleeplock_calls_return_sleeper : ∃ s : Sys, s.Reachable ∧ (s.procs 2).place = .asleep ∧
    (∀ q, (s.procs q).held → (s.procs q).place.acquiring = false) ∧
    ∃ s', s.Runs s' ∧ (s'.procs 2).place.outside ∧ ((s.procs 2).place.acquiring → (s'.procs 2).held) := by
  obtain ⟨s, reach, idle, held, asleep⟩ := sleeper_reachable
  have noReacquire : ∀ q, (s.procs q).held → (s.procs q).place.acquiring = false := fun q heldQ => by
    rw [reach.inv.unique q 1 heldQ held, idle]; rfl
  exact ⟨s, reach, asleep, noReacquire, sleeplock_calls_return reach noReacquire 2⟩

end Xv6.Sleeplocks
