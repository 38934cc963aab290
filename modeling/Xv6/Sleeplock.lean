import Mathlib.Data.List.Basic

/-!
# Sleeping locks

`sleeplock.c`: `acquiresleep`, `releasesleep` and `holdingsleep`, each run by a process, with
the sleeplock's spinlock `lk->lk` taken on entry. `acquiresleep` sleeps on the sleeplock while
it is locked; `sleep` gives up `lk->lk` and parks the process in one step, and `releasesleep`'s
`wakeup(lk)` makes every process parked on it runnable again. Any other wakeup (a `kill`) may
come at any time. Each process keeps (ghost) whether it holds the sleeplock: from the return of
its `acquiresleep` to its `releasesleep`.

`sleeplock_exclusion` shows, for callers that release only after `holdingsleep` said they hold
the sleeplock (as `brelse` does), that at most one process holds it, that `locked` and `pid` say
which, that `holdingsleep` answers exactly, and that no process is left asleep on a free
sleeplock; `sleeplock_reacquire_hangs` that a holder calling `acquiresleep` again never returns.
-/

namespace Xv6.Sleeplocks

/-- `struct sleeplock`'s `locked` and `pid`; its spinlock `lk` is the holder kept in `Sys`. -/
structure Sleeplock where
  locked : Bool
  pid : Nat
  deriving DecidableEq

/-- `initsleeplock`. -/
def initsleeplock : Sleeplock := ⟨false, 0⟩

/-- Where a process is in a call on the sleeplock. -/
inductive Place
  | idle
  /-- In `acquiresleep`, at `acquire(&lk->lk)`: on entry, or in `sleep` after a wakeup. -/
  | acquireSpin
  /-- Holding `lk->lk`, at `while (lk->locked)`. -/
  | acquireLoop
  /-- In `sleep(lk, &lk->lk)`, parked on the sleeplock. -/
  | asleep
  | releaseSpin
  | releaseBody
  | holdingSpin
  | holdingBody
  /-- `holdingsleep` returned `r`. -/
  | holdingRet (r : Bool)
  deriving DecidableEq

/-- The places that hold `lk->lk`. -/
def Place.locked : Place → Bool
  | .acquireLoop | .releaseBody | .holdingBody => true
  | _ => false

/-- The places outside a call, from which a process may make one. -/
def Place.outside : Place → Bool
  | .idle | .holdingRet _ => true
  | _ => false

/-- A process at its place, with (ghost) whether it holds the sleeplock. -/
structure Caller where
  place : Place
  held : Bool
  deriving DecidableEq

/-- What a process does: begin a call, take `lk->lk` when its spin finds it free, run the section
under `lk->lk` up to its `release` or `sleep`, or wake from `sleep`. -/
inductive Op
  | acquiresleep
  | releasesleep
  | holdingsleep
  | acquire
  | body
  | wake
  deriving DecidableEq

/-- The sleeplock, the holder of `lk->lk`, and the processes by pid. -/
structure Sys where
  lock : Sleeplock
  holder : Option Nat
  procs : Nat → Caller

/-- `wakeup(lk)`: every process parked on the sleeplock becomes runnable, back in `sleep` at its
`acquire(&lk->lk)`. -/
def wakeup (procs : Nat → Caller) (q : Nat) : Caller :=
  if (procs q).place = .asleep then { procs q with place := .acquireSpin } else procs q

/-- The section of process `p` under `lk->lk`, from `s.procs p`'s place. -/
def Sys.body (s : Sys) (p : Nat) : Option Sys :=
  match (s.procs p).place with
  | .acquireLoop =>
    if s.lock.locked then
      -- `sleep(lk, &lk->lk)`
      some { s with holder := none, procs := Function.update s.procs p { s.procs p with place := .asleep } }
    else
      -- `lk->locked = 1; lk->pid = myproc()->pid; release(&lk->lk);`
      some { lock := ⟨true, p⟩, holder := none, procs := Function.update s.procs p ⟨.idle, true⟩ }
  | .releaseBody =>
    -- `lk->locked = 0; lk->pid = 0; wakeup(lk); release(&lk->lk);`
    some { lock := ⟨false, 0⟩, holder := none, procs := Function.update (wakeup s.procs) p ⟨.idle, false⟩ }
  | .holdingBody =>
    -- `r = lk->locked && (lk->pid == myproc()->pid); release(&lk->lk);`
    let r := s.lock.locked && s.lock.pid == p
    some { s with holder := none, procs := Function.update s.procs p { s.procs p with place := .holdingRet r } }
  | _ => none

/-- Where `acquire(&lk->lk)` leads from each place that spins on it. -/
def Place.acquired : Place → Option Place
  | .acquireSpin => some .acquireLoop
  | .releaseSpin => some .releaseBody
  | .holdingSpin => some .holdingBody
  | _ => none

/-- Begin a call: from outside every call, to its first place. -/
def Sys.enter (s : Sys) (p : Nat) (place : Place) : Option Sys :=
  if (s.procs p).place.outside then some { s with procs := Function.update s.procs p { s.procs p with place } }
  else none

/-- A step of process `p`, or `none` when `p` is not where the step can happen. -/
def Sys.step (s : Sys) (p : Nat) : Op → Option Sys
  | .acquiresleep => s.enter p .acquireSpin
  | .releasesleep => s.enter p .releaseSpin
  | .holdingsleep => s.enter p .holdingSpin
  | .acquire =>
    match (s.procs p).place.acquired, s.holder with
    | some place, none => some { s with holder := some p, procs := Function.update s.procs p { s.procs p with place } }
    | _, _ => none
  | .body => if s.holder = some p then s.body p else none
  | .wake =>
    if (s.procs p).place = .asleep then
      some { s with procs := Function.update s.procs p { s.procs p with place := .acquireSpin } }
    else none

/-- The callers' side of the contract, as `bio.c`'s `brelse` keeps it. -/
def Sys.Allowed (s : Sys) (p : Nat) : Op → Prop
  | .releasesleep => (s.procs p).place = .holdingRet true
  | _ => True

/-- `initsleeplock`, no process in a call. -/
def Sys.init : Sys := ⟨initsleeplock, none, fun _ => ⟨.idle, false⟩⟩

inductive Sys.Reachable : Sys → Prop
  | init : Sys.Reachable Sys.init
  | step {s s' : Sys} {p : Nat} {op : Op} :
      Sys.Reachable s → s.Allowed p op → s.step p op = some s' → Sys.Reachable s'

/-- Allowed steps from `s` to `s'`, any number of them. -/
inductive Sys.Runs : Sys → Sys → Prop
  | refl (s : Sys) : Sys.Runs s s
  | step {s s₁ s' : Sys} {p : Nat} {op : Op} :
      s.Allowed p op → s.step p op = some s₁ → Sys.Runs s₁ s' → Sys.Runs s s'

/-- The places of `acquiresleep` that its caller cannot leave but by taking the sleeplock. -/
def Place.acquiring : Place → Bool
  | .acquireSpin | .acquireLoop | .asleep => true
  | _ => false

/-- The invariant: `lk->lk` is held exactly by the process in a section under it. -/
structure Sys.Inv (s : Sys) : Prop where
  holder : ∀ q, s.holder = some q ↔ (s.procs q).place.locked
  locked_iff : s.lock.locked = true ↔ ∃ q, (s.procs q).held
  unique : ∀ q q', (s.procs q).held → (s.procs q').held → q = q'
  pid : ∀ q, (s.procs q).held → s.lock.pid = q
  releasing : ∀ q, (s.procs q).place = .releaseSpin ∨ (s.procs q).place = .releaseBody → (s.procs q).held
  answer : ∀ q r, (s.procs q).place = .holdingRet r → (s.procs q).held = r
  asleep : ∀ q, (s.procs q).place = .asleep → s.lock.locked = true

namespace Sys

variable {s s' : Sys} {p : Nat}

/-- Moving a process keeps who holds the sleeplock. -/
@[simp] theorem held_update_place {procs : Nat → Caller} {place : Place} (q : Nat) :
    (Function.update procs p { procs p with place } q).held = (procs q).held := by
  by_cases same : q = p
  · subst q; simp
  · simp [same]

@[simp] theorem held_wakeup {procs : Nat → Caller} (q : Nat) : (wakeup procs q).held = (procs q).held := by
  unfold wakeup; split <;> rfl

theorem outside_not_locked {place : Place} (out : place.outside) : place.locked = false := by
  cases place <;> simp_all [Place.outside, Place.locked]

theorem Inv.not_locked (inv : s.Inv) (holder : s.holder = some p) {q : Nat} (ne : q ≠ p) :
    (s.procs q).place.locked = false := by
  have iff := inv.holder q
  rw [holder] at iff
  simpa [Ne.symm ne] using iff

theorem Inv.of_update (inv : s.Inv) {c : Caller} {holder : Option Nat}
    (holderIff : ∀ q, holder = some q ↔ (Function.update s.procs p c q).place.locked)
    (held : c.held = (s.procs p).held)
    (own : (c.place = .releaseSpin ∨ c.place = .releaseBody → c.held) ∧
      (∀ r, c.place = .holdingRet r → c.held = r) ∧ (c.place = .asleep → s.lock.locked)) :
    ({ s with holder, procs := Function.update s.procs p c } : Sys).Inv := by
  have heldAll (q : Nat) : (Function.update s.procs p c q).held = (s.procs q).held := by
    by_cases same : q = p
    · subst q; simp [held]
    · simp [same]
  refine ⟨holderIff, ?_, fun q q' => ?_, fun q => ?_, fun q => ?_, fun q r => ?_, fun q => ?_⟩ <;>
  simp only [heldAll]
  · exact inv.locked_iff
  · exact inv.unique q q'
  · exact inv.pid q
  all_goals by_cases same : q = p
  · subst q; simpa [held] using own.1
  · simpa only [Function.update_noteq same] using inv.releasing q
  · subst q; simpa [held] using own.2.1 r
  · simpa only [Function.update_noteq same] using inv.answer q r
  · subst q; simpa using own.2.2
  · simpa only [Function.update_noteq same] using inv.asleep q

theorem holder_update {procs : Nat → Caller} {c : Caller} {holder : Option Nat}
    (others : ∀ q, q ≠ p → (procs q).place.locked = false) (own : holder = some p ↔ c.place.locked)
    (notOther : ∀ q, q ≠ p → holder ≠ some q) (q : Nat) :
    holder = some q ↔ (Function.update procs p c q).place.locked := by
  by_cases same : q = p
  · subst q; simpa using own
  · simp [Function.update_noteq same, others q same, notOther q same]

theorem Inv.enter (inv : s.Inv) (out : (s.procs p).place.outside) {place : Place}
    (spins : place.acquired.isSome) (rel : place = .releaseSpin → (s.procs p).held) :
    ({ s with procs := Function.update s.procs p { s.procs p with place } } : Sys).Inv := by
  have notHolder : s.holder ≠ some p := fun holder =>
    absurd ((inv.holder p).mp holder) (by simp [outside_not_locked out])
  refine inv.of_update (fun q => ?_) rfl ?_
  · by_cases same : q = p
    · subst q
      have free : place.locked = false := by cases place <;> simp_all [Place.acquired, Place.locked]
      simp [notHolder, free]
    · simpa [same] using inv.holder q
  · cases place <;> simp_all [Place.acquired]

theorem acquired_cases {place place' : Place} (spun : place.acquired = some place') :
    (place = .acquireSpin ∧ place' = .acquireLoop) ∨ (place = .releaseSpin ∧ place' = .releaseBody) ∨
      (place = .holdingSpin ∧ place' = .holdingBody) := by
  cases place <;> simp_all [Place.acquired]

theorem Inv.acquire (inv : s.Inv) (free : s.holder = none) {place : Place}
    (spun : (s.procs p).place.acquired = some place) :
    ({ s with holder := some p, procs := Function.update s.procs p { s.procs p with place } } : Sys).Inv := by
  have unlocked (q : Nat) : (s.procs q).place.locked = false := by simpa [free] using inv.holder q
  refine inv.of_update (holder_update (fun q _ => unlocked q) ?_ (fun q ne => by simp [Ne.symm ne])) rfl ?_
  · rcases acquired_cases spun with ⟨-, rfl⟩ | ⟨-, rfl⟩ | ⟨-, rfl⟩ <;> simp [Place.locked]
  · rcases acquired_cases spun with ⟨-, rfl⟩ | ⟨was, rfl⟩ | ⟨-, rfl⟩
    · simp
    · exact ⟨fun _ => inv.releasing p (.inl was), by simp, by simp⟩
    · simp

theorem Inv.sleep (inv : s.Inv) (holder : s.holder = some p) (locked : s.lock.locked = true) :
    ({ s with holder := none, procs := Function.update s.procs p { s.procs p with place := .asleep } } : Sys).Inv :=
  inv.of_update (holder_update (fun _ => inv.not_locked holder) (by simp [Place.locked]) (by simp)) rfl
    (by simp [locked])

theorem Inv.holding (inv : s.Inv) (holder : s.holder = some p) :
    ({ s with
        holder := none
        procs := Function.update s.procs p { s.procs p with place := .holdingRet (s.lock.locked && s.lock.pid == p) } } :
      Sys).Inv := by
  have answer : (s.procs p).held = (s.lock.locked && s.lock.pid == p) := by
    cases held : (s.procs p).held
    · cases locked : s.lock.locked
      · rfl
      · obtain ⟨q, heldQ⟩ := inv.locked_iff.mp locked
        have ne : q ≠ p := fun same => by rw [same, held] at heldQ; cases heldQ
        simp [inv.pid q heldQ, ne]
    · simp [inv.locked_iff.mpr ⟨p, held⟩, inv.pid p held]
  exact inv.of_update (holder_update (fun _ => inv.not_locked holder) (by simp [Place.locked]) (by simp)) rfl
    (by simp [answer])

theorem Inv.wake (inv : s.Inv) (asleep : (s.procs p).place = .asleep) :
    ({ s with procs := Function.update s.procs p { s.procs p with place := .acquireSpin } } : Sys).Inv := by
  have free : s.holder ≠ some p := fun holder => by
    have := (inv.holder p).mp holder; rw [asleep] at this; cases this
  refine inv.of_update (fun q => ?_) rfl (by simp)
  by_cases same : q = p
  · subst q; simp [Place.locked, free]
  · simpa [same] using inv.holder q

theorem Inv.take (inv : s.Inv) (holder : s.holder = some p) (free : s.lock.locked = false) :
    ({ lock := ⟨true, p⟩, holder := none, procs := Function.update s.procs p ⟨.idle, true⟩ } : Sys).Inv := by
  have nobody (q : Nat) : (s.procs q).held = false := by
    by_contra held
    have := inv.locked_iff.mpr ⟨q, by simpa using held⟩
    rw [free] at this; cases this
  have heldOnly (q : Nat) : (Function.update s.procs p ⟨.idle, true⟩ q).held = true ↔ q = p := by
    by_cases same : q = p
    · subst q; simp
    · simp [same, nobody q]
  refine ⟨fun q => ?_, ?_, fun q q' => ?_, fun q => ?_, fun q => ?_, fun q r => ?_, fun q => ?_⟩
  · by_cases same : q = p
    · subst q; simp [Place.locked]
    · simp [same, inv.not_locked holder same]
  · simp only [heldOnly, true_iff]; exact ⟨p, rfl⟩
  · simp only [heldOnly]; rintro rfl rfl; rfl
  · simp only [heldOnly]; rintro rfl; rfl
  all_goals by_cases same : q = p
  · subst q; simp
  · simpa only [Function.update_noteq same] using inv.releasing q
  · subst q; simp
  · simpa only [Function.update_noteq same] using inv.answer q r
  all_goals simp

theorem wakeup_place {procs : Nat → Caller} (q : Nat) :
    (wakeup procs q).place = if (procs q).place = .asleep then .acquireSpin else (procs q).place := by
  unfold wakeup; split <;> simp_all

theorem Inv.release (inv : s.Inv) (holder : s.holder = some p) (body : (s.procs p).place = .releaseBody) :
    ({ lock := ⟨false, 0⟩, holder := none, procs := Function.update (wakeup s.procs) p ⟨.idle, false⟩ } : Sys).Inv := by
  have heldP := inv.releasing p (.inr body)
  have others (q : Nat) (ne : q ≠ p) : (s.procs q).held = false := by
    by_contra held
    exact ne (inv.unique q p (by simpa using held) heldP)
  have nobody (q : Nat) : (Function.update (wakeup s.procs) p ⟨.idle, false⟩ q).held = false := by
    by_cases same : q = p
    · subst q; simp
    · simp [same, others q same]
  refine ⟨fun q => ?_, ?_, fun q q' => ?_, fun q => ?_, fun q => ?_, fun q r => ?_, fun q => ?_⟩ <;>
  simp only [nobody, Bool.false_eq_true, false_implies, exists_false, iff_false, not_false_eq_true]
  · by_cases same : q = p
    · subst q; simp [Place.locked]
    · have notLocked := inv.not_locked holder same
      simp only [Function.update_noteq same, wakeup_place, reduceCtorEq, false_iff]
      split <;> simp_all [Place.locked]
  all_goals by_cases same : q = p
  all_goals try (subst q; simp)
  all_goals simp only [Function.update_noteq same, wakeup_place]
  · split
    · simp
    · exact fun rel => absurd (inv.releasing q rel) (by simp [others q same])
  · split
    · simp
    · exact fun ret => by simpa [others q same] using (inv.answer q r ret).symm
  · split
    · simp
    · assumption

theorem step_cases {op : Op} (ok : s.step p op = some s') :
    (∃ place, (s.procs p).place.outside ∧
      (op = .acquiresleep ∧ place = .acquireSpin ∨ op = .releasesleep ∧ place = .releaseSpin ∨
        op = .holdingsleep ∧ place = .holdingSpin) ∧
      s' = { s with procs := Function.update s.procs p { s.procs p with place } }) ∨
    (∃ place, (s.procs p).place.acquired = some place ∧ s.holder = none ∧
      s' = { s with holder := some p, procs := Function.update s.procs p { s.procs p with place } }) ∨
    (s.holder = some p ∧ (s.procs p).place = .acquireLoop ∧ s.lock.locked = true ∧
      s' = { s with holder := none, procs := Function.update s.procs p { s.procs p with place := .asleep } }) ∨
    (s.holder = some p ∧ (s.procs p).place = .acquireLoop ∧ s.lock.locked = false ∧
      s' = { lock := ⟨true, p⟩, holder := none, procs := Function.update s.procs p ⟨.idle, true⟩ }) ∨
    (s.holder = some p ∧ (s.procs p).place = .releaseBody ∧
      s' = { lock := ⟨false, 0⟩, holder := none, procs := Function.update (wakeup s.procs) p ⟨.idle, false⟩ }) ∨
    (s.holder = some p ∧ (s.procs p).place = .holdingBody ∧
      s' = { s with
        holder := none
        procs := Function.update s.procs p { s.procs p with place := .holdingRet (s.lock.locked && s.lock.pid == p) } }) ∨
    ((s.procs p).place = .asleep ∧
      s' = { s with procs := Function.update s.procs p { s.procs p with place := .acquireSpin } }) := by
  cases op with
  | acquiresleep | releasesleep | holdingsleep =>
    simp only [Sys.step, Sys.enter] at ok
    split at ok
    · cases ok; exact .inl ⟨_, ‹_›, by simp, rfl⟩
    · cases ok
  | acquire =>
    simp only [Sys.step] at ok
    split at ok
    · cases ok; exact .inr (.inl ⟨_, ‹_›, ‹_›, rfl⟩)
    · cases ok
  | body =>
    simp only [Sys.step] at ok
    split at ok
    · rename_i holder
      simp only [Sys.body] at ok
      split at ok
      · rename_i loop
        split at ok
        · cases ok; exact .inr (.inr (.inl ⟨holder, loop, ‹_›, rfl⟩))
        · rename_i free
          cases ok; exact .inr (.inr (.inr (.inl ⟨holder, loop, by simpa using free, rfl⟩)))
      · cases ok; exact .inr (.inr (.inr (.inr (.inl ⟨holder, ‹_›, rfl⟩))))
      · cases ok; exact .inr (.inr (.inr (.inr (.inr (.inl ⟨holder, ‹_›, rfl⟩)))))
      · cases ok
    · cases ok
  | wake =>
    simp only [Sys.step] at ok
    split at ok
    · cases ok; exact .inr (.inr (.inr (.inr (.inr (.inr ⟨‹_›, rfl⟩)))))
    · cases ok

theorem inv_init : Sys.init.Inv where
  holder _ := by simp [Sys.init, Place.locked]
  locked_iff := by simp [Sys.init, initsleeplock]
  unique _ _ held := by simp [Sys.init] at held
  pid _ held := by simp [Sys.init] at held
  releasing _ rel := by simp [Sys.init] at rel
  answer _ _ ret := by simp [Sys.init] at ret
  asleep _ asleep := by simp [Sys.init] at asleep

theorem Inv.step {op : Op} (inv : s.Inv) (allowed : s.Allowed p op) (ok : s.step p op = some s') : s'.Inv := by
  rcases step_cases ok with ⟨place, out, entry, rfl⟩ | ⟨place, spun, free, rfl⟩ | ⟨holder, -, locked, rfl⟩ |
    ⟨holder, -, free, rfl⟩ | ⟨holder, body, rfl⟩ | ⟨holder, -, rfl⟩ | ⟨asleep, rfl⟩
  · refine inv.enter out ?_ fun rel => ?_
    · rcases entry with ⟨-, rfl⟩ | ⟨-, rfl⟩ | ⟨-, rfl⟩ <;> rfl
    · obtain ⟨rfl, -⟩ : op = .releasesleep ∧ place = .releaseSpin := by
        rcases entry with ⟨-, rfl⟩ | h | ⟨-, rfl⟩ <;> first | exact h | cases rel
      exact inv.answer p true allowed
  · exact inv.acquire free spun
  · exact inv.sleep holder locked
  · exact inv.take holder free
  · exact inv.release holder body
  · exact inv.holding holder
  · exact inv.wake asleep

theorem Reachable.inv (reach : s.Reachable) : s.Inv := by
  induction reach with
  | init => exact inv_init
  | step _ allowed ok inv => exact inv.step allowed ok

theorem Inv.stuck {q : Nat} {op : Op} (inv : s.Inv) (held : (s.procs p).held)
    (inside : (s.procs p).place.acquiring) (ok : s.step q op = some s') :
    (s'.procs p).held ∧ (s'.procs p).place.acquiring ∧ s'.lock = s.lock := by
  have locked := inv.locked_iff.mpr ⟨p, held⟩
  have kept {c : Caller} (ne : p ≠ q) : (Function.update s.procs q c p) = s.procs p := Function.update_noteq ne _ _
  rcases step_cases ok with ⟨place, out, -, rfl⟩ | ⟨place, spun, -, rfl⟩ | ⟨-, -, -, rfl⟩ |
    ⟨-, -, free, rfl⟩ | ⟨-, body, rfl⟩ | ⟨-, holding, rfl⟩ | ⟨asleep, rfl⟩
  · have ne : p ≠ q := by rintro rfl; cases h : (s.procs p).place <;> simp_all [Place.outside, Place.acquiring]
    exact ⟨by simp [kept ne, held], by simp [kept ne, inside], rfl⟩
  · by_cases same : p = q
    · subst q
      rcases acquired_cases spun with ⟨-, rfl⟩ | ⟨was, -⟩ | ⟨was, -⟩
      · exact ⟨by simp [held], by simp [Place.acquiring], rfl⟩
      all_goals rw [was] at inside; cases inside
    · exact ⟨by simp [kept same, held], by simp [kept same, inside], rfl⟩
  · by_cases same : p = q
    · subst q; exact ⟨by simp [held], by simp [Place.acquiring], rfl⟩
    · exact ⟨by simp [kept same, held], by simp [kept same, inside], rfl⟩
  · rw [locked] at free; cases free
  · have ne : q = p := inv.unique q p (inv.releasing q (.inr body)) held
    subst q; rw [body] at inside; cases inside
  · have ne : p ≠ q := by rintro rfl; rw [holding] at inside; cases inside
    exact ⟨by simp [kept ne, held], by simp [kept ne, inside], rfl⟩
  · by_cases same : p = q
    · subst q; exact ⟨by simp [held], by simp [Place.acquiring], rfl⟩
    · exact ⟨by simp [kept same, held], by simp [kept same, inside], rfl⟩

theorem Inv.stuck_runs {s s' : Sys} (run : s.Runs s') :
    s.Inv → (s.procs p).held → (s.procs p).place.acquiring →
      (s'.procs p).held ∧ (s'.procs p).place.acquiring ∧ s'.lock = s.lock := by
  induction run with
  | refl => exact fun _ held inside => ⟨held, inside, rfl⟩
  | step allowed ok _ ih =>
    intro inv held inside
    obtain ⟨held₁, inside₁, lock₁⟩ := inv.stuck held inside ok
    obtain ⟨held', inside', lock'⟩ := ih (inv.step allowed ok) held₁ inside₁
    exact ⟨held', inside', lock'.trans lock₁⟩

end Sys

/-- At most one process holds the sleeplock, `holdingsleep` is exact, and no wakeup is lost. -/
theorem sleeplock_exclusion {s : Sys} (reach : s.Reachable) :
    (∀ p q, (s.procs p).place.locked → (s.procs q).place.locked → p = q) ∧
    (∀ p q, (s.procs p).held → (s.procs q).held → p = q) ∧
    (s.lock.locked = true ↔ ∃ p, (s.procs p).held) ∧
    (∀ p, (s.procs p).held → s.lock.pid = p) ∧
    (∀ p r, (s.procs p).place = .holdingRet r → (s.procs p).held = r) ∧
    ∀ p, (s.procs p).place = .asleep → s.lock.locked = true := by
  have inv := reach.inv
  refine ⟨fun p q lockedP lockedQ => ?_, inv.unique, inv.locked_iff, inv.pid, inv.answer, inv.asleep⟩
  exact Option.some.inj (((inv.holder p).mpr lockedP).symm.trans ((inv.holder q).mpr lockedQ))

/-- `acquiresleep` does not check whether its caller already holds the sleeplock, as `acquire` does
for a spinlock: a holder that calls it again never returns. -/
theorem sleeplock_reacquire_hangs {s s' : Sys} {p : Nat} (reach : s.Reachable) (held : (s.procs p).held)
    (inside : (s.procs p).place.acquiring) (run : s.Runs s') :
    (s'.procs p).held ∧ (s'.procs p).place.acquiring ∧ s'.lock = ⟨true, p⟩ := by
  have inv := reach.inv
  obtain ⟨held', inside', lock⟩ := Sys.Inv.stuck_runs run inv held inside
  rw [lock]
  exact ⟨held', inside', by rw [← inv.pid p held, ← inv.locked_iff.mpr ⟨p, held⟩]⟩

theorem waiting_reachable : ∃ s : Sys, s.Reachable ∧ (s.procs 1).held ∧ (s.procs 2).place = .asleep := by
  have r₀ := Sys.Reachable.init
  have r₁ := @Sys.Reachable.step _ _ 1 .acquiresleep r₀ trivial rfl
  have r₂ := @Sys.Reachable.step _ _ 1 .acquire r₁ trivial rfl
  have r₃ := @Sys.Reachable.step _ _ 1 .body r₂ trivial rfl
  have r₄ := @Sys.Reachable.step _ _ 2 .acquiresleep r₃ trivial rfl
  have r₅ := @Sys.Reachable.step _ _ 2 .acquire r₄ trivial rfl
  have r₆ := @Sys.Reachable.step _ _ 2 .body r₅ trivial rfl
  exact ⟨_, r₆, rfl, rfl⟩

theorem sleeplock_exclusion_waiting : ∃ s : Sys, (s.procs 1).held ∧ (s.procs 2).place = .asleep ∧
    ((∀ p q, (s.procs p).place.locked → (s.procs q).place.locked → p = q) ∧
    (∀ p q, (s.procs p).held → (s.procs q).held → p = q) ∧
    (s.lock.locked = true ↔ ∃ p, (s.procs p).held) ∧
    (∀ p, (s.procs p).held → s.lock.pid = p) ∧
    (∀ p r, (s.procs p).place = .holdingRet r → (s.procs p).held = r) ∧
    ∀ p, (s.procs p).place = .asleep → s.lock.locked = true) := by
  obtain ⟨s, reach, held, asleep⟩ := waiting_reachable
  exact ⟨s, held, asleep, sleeplock_exclusion reach⟩

theorem reacquired_runs : ∃ s s' : Sys, s.Reachable ∧ (s.procs 1).held ∧ (s.procs 1).place = .acquireSpin ∧
    s.Runs s' ∧ (s'.procs 1).place = .asleep := by
  have r₁ := @Sys.Reachable.step _ _ 1 .acquiresleep Sys.Reachable.init trivial rfl
  have r₂ := @Sys.Reachable.step _ _ 1 .acquire r₁ trivial rfl
  have r₃ := @Sys.Reachable.step _ _ 1 .body r₂ trivial rfl
  have r₄ := @Sys.Reachable.step _ _ 1 .acquiresleep r₃ trivial rfl
  exact ⟨_, _, r₄, rfl, rfl,
    @Sys.Runs.step _ _ _ 1 .acquire trivial rfl (@Sys.Runs.step _ _ _ 1 .body trivial rfl (.refl _)), rfl⟩

theorem sleeplock_reacquire_hangs_again : ∃ s s' : Sys, (s.procs 1).place = .acquireSpin ∧
    (s'.procs 1).place = .asleep ∧ ((s'.procs 1).held ∧ (s'.procs 1).place.acquiring ∧ s'.lock = ⟨true, 1⟩) := by
  obtain ⟨s, s', reach, held, spin, run, asleep⟩ := reacquired_runs
  exact ⟨s, s', spin, asleep, sleeplock_reacquire_hangs reach held (by rw [spin]; rfl) run⟩

end Xv6.Sleeplocks
